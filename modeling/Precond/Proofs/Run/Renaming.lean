import Mathlib.Logic.Equiv.Basic
import Precond.Policy.Basic
import Precond.Proofs.Run.Sub

/-! Programs with other names for variables. A renaming is one to one and keeps types; it is applied to
all that a program says of variables, those that local bindings introduce among them. The variables of an
expression and of a subroutine are renamed along with it (`IR.Renaming.freeVars_exp`,
`IR.Renaming.mem_vars_sub`). -/

namespace Precond.IR

/-- Names for variables, one to one. A variable keeps its type. -/
structure Renaming where
  perm : Equiv.Perm Var
  type (v : Var) : (perm v).type = v.type

namespace Renaming

instance : CoeFun Renaming fun _ => Var → Var := ⟨fun ρ => ρ.perm⟩

variable (ρ : Renaming)

/-- The variables that get other names. -/
def Moves (v : Var) : Prop := ρ v ≠ v

def exp : Exp → Exp
  | .var v => .var (ρ v)
  | .lit x => .lit x
  | .load m a e n => .load (exp m) (exp a) e n
  | .store m a x e n => .store (exp m) (exp a) (exp x) e n
  | .bin op l r => .bin op (exp l) (exp r)
  | .un op x => .un op (exp x)
  | .cast k w x => .cast k w (exp x)
  | .ite c y n => .ite (exp c) (exp y) (exp n)
  | .extract hi lo x => .extract hi lo (exp x)
  | .concat l r => .concat (exp l) (exp r)
  | .unknown text type => .unknown text type
  | .letIn v x b => .letIn (ρ v) (exp x) (exp b)

def label : Label → Label
  | .direct t => .direct t
  | .indirect e => .indirect (ρ.exp e)

def kind : JumpKind → JumpKind
  | .goto l => .goto (ρ.label l)
  | .call l r => .call (ρ.label l) (r.map ρ.label)
  | .ret l => .ret (ρ.label l)
  | .interrupt n t => .interrupt n t

def jump (j : Jump) : Jump := ⟨ρ.kind j.kind, ρ.exp j.cond, j.tid⟩

def define (d : Def) : Def := ⟨ρ d.lhs, ρ.exp d.rhs, d.tid⟩

def phi (p : Phi) : Phi where
  lhs := ρ p.lhs
  values := p.values.map fun x => (x.1, ρ.exp x.2)
  tid := p.tid
  nonempty := fun h => p.nonempty (List.map_eq_nil_iff.mp h)

def elt : Elt → Elt
  | .phi p => .phi (ρ.phi p)
  | .define d => .define (ρ.define d)
  | .jump j => .jump (ρ.jump j)

def blk (b : Blk) : Blk := ⟨b.tid, b.phis.map ρ.phi, b.defs.map ρ.define, b.jumps.map ρ.jump⟩

def arg (a : Arg) : Arg := ⟨ρ a.var, a.intent⟩

def sub (s : Sub) : Sub := ⟨s.name, s.tid, s.addr, s.args.map ρ.arg, s.blks.map ρ.blk⟩

variable {ρ} {e : Exp} {s : Sub} {u v : Var}

theorem inj : ρ u = ρ v ↔ u = v := ρ.perm.apply_eq_iff_eq

/-- Two variables of one type get each other's names. -/
def swap (u v : Var) (h : u.type = v.type) : Renaming where
  perm := Equiv.swap u v
  type x := by
    rw [Equiv.swap_apply_def]
    split
    · rename_i hx
      rw [hx, h]
    · split
      · rename_i hx
        rw [hx, h]
      · rfl

theorem eq_or_eq_of_swap {h : u.type = v.type} {x : Var} (hx : (swap u v h).Moves x) : x = u ∨ x = v := by
  by_contra hne
  rw [not_or] at hne
  exact hx (Equiv.swap_apply_of_ne_of_ne hne.1 hne.2)

/-- A name that is another one is not the old name of a variable that keeps its name. -/
theorem Moves.moved (h : ρ.Moves v) : ρ.Moves (ρ v) := fun hv => h (inj.mp hv)

/-! ### Expressions -/

theorem kind_exp : (ρ.exp e).kind = e.kind := by
  cases e <;> rfl

theorem exp_eq_always : ρ.exp e = Exp.always ↔ e = Exp.always := by
  cases e <;> exact Iff.intro (fun h => by cases h <;> rfl) (fun h => by cases h <;> rfl)

theorem map_filter (vs : List Var) : (vs.map ρ).filter (· ≠ ρ v) = (vs.filter (· ≠ v)).map ρ := by
  rw [List.filter_map]
  refine congrArg (List.map ρ) (List.filter_congr fun u _ => ?_)
  exact decide_eq_decide.mpr (not_congr inj)

theorem freeVars_exp : (ρ.exp e).freeVars = e.freeVars.map ρ := by
  induction e with
  | var | lit | unknown => rfl
  | un | cast | extract => assumption
  | bin _ l r ihl ihr => simp only [exp, Exp.freeVars, ihl, ihr, List.map_append]
  | concat l r ihl ihr => simp only [exp, Exp.freeVars, ihl, ihr, List.map_append]
  | load m a _ _ ihm iha => simp only [exp, Exp.freeVars, ihm, iha, List.map_append]
  | store m a x _ _ ihm iha ihx => simp only [exp, Exp.freeVars, ihm, iha, ihx, List.map_append]
  | ite c y n ihc ihy ihn => simp only [exp, Exp.freeVars, ihc, ihy, ihn, List.map_append]
  | letIn w x b ihx ihb =>
    rw [exp, Exp.freeVars, Exp.freeVars, ihx, ihb, map_filter, List.map_append]

theorem not_moves_of_map {vs : List Var} (h : vs.map ρ = vs) (hv : v ∈ vs) : ¬ ρ.Moves v := by
  obtain ⟨i, hi, rfl⟩ := List.getElem_of_mem hv
  have hget := List.getElem_of_eq h (i := i) (by rwa [List.length_map])
  rw [List.getElem_map] at hget
  exact not_not_intro hget

/-- What a renaming leaves as it is does not read variables that get other names. -/
theorem not_moves_of_exp (h : ρ.exp e = e) (hv : v ∈ e.freeVars) : ¬ ρ.Moves v :=
  not_moves_of_map (freeVars_exp.symm.trans (congrArg Exp.freeVars h)) hv

/-! ### Blocks and subroutines -/

theorem first_phi (p : Phi) : (ρ.phi p).first = ρ.exp p.first := by
  obtain ⟨lhs, values, tid, hne⟩ := p
  cases values with
  | nil => exact absurd rfl hne
  | cons x xs => rfl

theorem lookup_exps (values : List (String × Exp)) (pred : String) :
    (values.map fun x => (x.1, ρ.exp x.2)).lookup pred = (values.lookup pred).map ρ.exp := by
  induction values with
  | nil => rfl
  | cons x xs ih =>
    rw [List.map_cons, List.lookup_cons, List.lookup_cons, ih]
    split <;> rfl

theorem along_phi (p : Phi) (pred : String) : (ρ.phi p).along? pred = (p.along? pred).map ρ.exp := by
  rw [Phi.along?, Phi.along?, phi, ← List.map_reverse, lookup_exps]

theorem elts_blk (b : Blk) : (ρ.blk b).elts = b.elts.map ρ.elt := by
  simp only [Blk.elts, blk, List.map_append, List.map_map]
  rfl

theorem exps_label (l : Label) : (ρ.label l).exps = l.exps.map ρ.exp := by
  cases l <;> rfl

theorem exps_jump (j : Jump) : (ρ.jump j).exps = j.exps.map ρ.exp := by
  obtain ⟨kind, cond, tid⟩ := j
  cases kind with
  | goto l => exact congrArg (ρ.exp cond :: ·) (exps_label l)
  | ret l => exact congrArg (ρ.exp cond :: ·) (exps_label l)
  | interrupt => rfl
  | call l r =>
    refine congrArg (ρ.exp cond :: ·) ?_
    rw [List.map_append, ← exps_label]
    cases r with
    | none => rfl
    | some r => exact congrArg ((ρ.label l).exps ++ ·) (exps_label r)

theorem vars_elt (e : Elt) : (ρ.elt e).vars = e.vars.map ρ := by
  cases e with
  | phi p =>
    simp only [elt, Elt.vars, phi, List.flatMap_map, List.map_cons, List.map_flatMap, freeVars_exp]
  | define d => simp only [elt, Elt.vars, define, freeVars_exp, List.map_cons]
  | jump j => simp only [elt, Elt.vars, exps_jump, List.flatMap_map, List.map_flatMap, freeVars_exp]

theorem vars_blk (b : Blk) : (ρ.blk b).vars = b.vars.map ρ := by
  simp only [Blk.vars, elts_blk, List.flatMap_map, List.map_flatMap, vars_elt]

theorem mentions_sub : (ρ.sub s).args.map (·.var) ++ (ρ.sub s).blks.flatMap Blk.vars =
    (s.args.map (·.var) ++ s.blks.flatMap Blk.vars).map ρ := by
  simp only [sub, List.map_append, List.map_map, List.flatMap_map, List.map_flatMap, vars_blk]
  rfl

/-- The variables of the subroutine are renamed. -/
theorem mem_vars_sub : u ∈ (ρ.sub s).vars ↔ ∃ v ∈ s.vars, ρ v = u := by
  rw [Sub.vars, mentions_sub, List.mem_eraseDups, List.mem_map]
  simp only [Sub.vars, List.mem_eraseDups]

/-- A subroutine that a renaming leaves as it is has no variables that get other names. -/
theorem not_moves_of_sub (h : ρ.sub s = s) (hv : v ∈ s.vars) : ¬ ρ.Moves v := by
  have hmap := mentions_sub (ρ := ρ) (s := s)
  rw [h] at hmap
  exact not_moves_of_map hmap.symm (List.mem_eraseDups.mp hv)

/-- A rule for calls does not ask for the names of variables other than the return register. -/
theorem applies_sub {arch : Arch} (hr : ∀ r, arch.returnReg = some r → ¬ ρ.Moves r) (rule : CallRule) :
    rule.applies arch (ρ.sub s) = rule.applies arch s := by
  have hwrites {r : Var} (h : ¬ ρ.Moves r) : CallRule.writes (ρ.sub s) r = CallRule.writes s r := by
    have hlhs (d : Def) : decide ((ρ.define d).lhs = r) = decide (d.lhs = r) :=
      decide_eq_decide.mpr (by
        rw [define]
        nth_rewrite 1 [← not_not.mp h]
        exact inj)
    simp only [CallRule.writes, sub, blk, List.any_map, Function.comp_def, hlhs]
  cases rule with
  | empty => exact congrArg (fun bs : List Blk => bs.isEmpty) rfl |>.trans (List.isEmpty_map ..)
  | argTerms => exact congrArg not (List.isEmpty_map ..)
  | raxOut =>
    rw [CallRule.applies, CallRule.applies]
    cases h : arch.returnReg with
    | none => rfl
    | some r => exact congrArg (((r.name == "RAX" || r.name == "EAX")) && ·) (hwrites (hr r h))
  | _ => rfl

end Renaming

end Precond.IR

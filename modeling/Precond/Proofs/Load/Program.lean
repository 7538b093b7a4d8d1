import Mathlib.Data.List.Forall2
import Precond.Load.Program
import Precond.Proofs.IR.Reading

/-! Loading programs. A program is its draft with every text read in the scope of its subroutine, and
with the variables of the scope in the place of their names (`Load.ReadsSub`). What a subroutine reads
and writes are therefore registers and variables that it declares itself, with the types that it
declares (`Load.program_lexical`). Data that is no program is reported as such, unless a text binds a
name with a width of digits that are no numeral, or holds a literal whose width has no power of two
(`Load.program_reports`). -/

namespace Precond

open IR

/-! ### Checks -/

namespace Schema

variable {α β : Type} {j : Json} {fs : Fields} {key : String}

namespace Checked

theorem seq_ok {f : Checked (α → β)} {x : Checked α} {b : β} (h : f <*> x = .ok b) :
    ∃ g a, f = .ok g ∧ x = .ok a ∧ b = g a := by
  change Checked.seq f (fun _ => x) = .ok b at h
  unfold seq at h
  split at h <;> cases h
  exact ⟨_, _, rfl, ‹_›, rfl⟩

theorem map_ok {f : α → β} {x : Checked α} {b : β} (h : f <$> x = .ok b) :
    ∃ a, x = .ok a ∧ b = f a := by
  obtain ⟨g, a, hg, hx, rfl⟩ := seq_ok (f := .ok f) h
  cases hg
  exact ⟨a, hx, rfl⟩

theorem under_ok {step : Step} {x : Checked α} {a : α} (h : x.under step = .ok a) : x = .ok a := by
  cases x <;> cases h
  rfl

theorem bind_ok {x : Checked α} {f : α → Checked β} {b : β} (h : x.bind f = .ok b) :
    ∃ a, x = .ok a ∧ f a = .ok b := by
  cases x with
  | ok a => exact ⟨a, rfl, h⟩
  | error e => cases h

theorem all_ok {P : α → Prop} {cs : List (Checked α)} (hP : ∀ c ∈ cs, ∀ a, c = .ok a → P a)
    {as : List α} (h : all cs = .ok as) : ∀ a ∈ as, P a := by
  induction cs generalizing as with
  | nil =>
    cases h
    exact nofun
  | cons c cs ih =>
    obtain ⟨hc, hcs⟩ := List.forall_mem_cons.mp hP
    obtain ⟨g, as, hg, has, rfl⟩ := seq_ok (x := all cs) h
    cases c with
    | error e => cases hg
    | ok a =>
      cases hg
      exact List.forall_mem_cons.mpr ⟨hc a rfl, ih hcs has⟩

end Checked

open Checked

theorem Check.object_ok {c : Fields → Checked α} {a : α} (h : Check.object c j = .ok a) :
    ∃ fs, c fs = .ok a := by
  cases j <;> first | exact ⟨_, h⟩ | cases h

theorem Fields.required_ok {c : Check α} {a : α} (h : fs.required key c = .ok a) :
    ∃ j, c j = .ok a := by
  unfold required at h
  split at h
  · exact ⟨_, under_ok h⟩
  · cases h

theorem Fields.withDefault_ok {c : Check α} {a default : α} (h : fs.withDefault key c default = .ok a) :
    (∃ j, c j = .ok a) ∨ a = default := by
  unfold withDefault at h
  split at h
  · exact .inl ⟨_, under_ok h⟩
  · cases h
    exact .inr rfl

theorem Check.items_ok {c : Check α} {xs : List Json} {i : Nat} {x : Checked α}
    (hx : x ∈ items c i xs) {a : α} (h : x = .ok a) : ∃ j, c j = .ok a := by
  induction xs generalizing i with
  | nil => cases hx
  | cons y ys ih =>
    rcases List.mem_cons.mp hx with rfl | hx
    · exact ⟨y, under_ok h⟩
    · exact ih hx

theorem Check.list_ok {P : α → Prop} {c : Check α} (hP : ∀ j a, c j = .ok a → P a) {least : Nat}
    {most : Option Nat} {as : List α} (h : Check.list c least most j = .ok as) :
    (∀ a ∈ as, P a) ∧ least ≤ as.length := by
  cases j with
  | arr xs =>
    dsimp only [list] at h
    split at h
    · cases h
    · obtain ⟨ys, hys, h⟩ := Checked.bind_ok h
      split at h <;> cases h
      rename_i hlen
      refine ⟨all_ok (fun x hx a ha => ?_) hys, Nat.le_of_not_lt hlen⟩
      obtain ⟨j, hj⟩ := items_ok hx ha
      exact hP j a hj
  | _ => cases h

/-- The items of a field that may be absent. -/
theorem Fields.listOf_ok {P : α → Prop} {c : Check α} (hP : ∀ j a, c j = .ok a → P a) {as : List α}
    (h : fs.withDefault key (Check.listOf c) [] = .ok as) : ∀ a ∈ as, P a := by
  rcases withDefault_ok h with ⟨j, hj⟩ | rfl
  · exact (Check.list_ok hP hj).1
  · exact nofun

end Schema

namespace Draft

open Schema Checked

/-- Every phi has a value. -/
def Blk.Proper (d : Blk) : Prop := ∀ p ∈ d.phis, p.values ≠ []

def Sub.Proper (d : Sub) : Prop := ∀ b ∈ d.blks, b.Proper

def Program.Proper (d : Program) : Prop := ∀ s ∈ d.subs, s.Proper

variable {j : Json}

theorem Phi.check_ok {d : Phi} (h : Phi.check j = .ok d) : d.values ≠ [] := by
  obtain ⟨fs, h⟩ := Check.object_ok h
  obtain ⟨_, tid, h₁, -, rfl⟩ := seq_ok h
  obtain ⟨_, values, h₂, hvalues, rfl⟩ := seq_ok h₁
  obtain ⟨lhs, -, rfl⟩ := map_ok h₂
  obtain ⟨j, hj⟩ := Fields.required_ok hvalues
  have hlen := (Check.list_ok (fun _ _ _ => trivial) hj).2
  rintro rfl
  cases hlen

theorem Blk.check_ok {d : Blk} (h : Blk.check j = .ok d) : d.Proper := by
  obtain ⟨fs, h⟩ := Check.object_ok h
  obtain ⟨_, jumps, h₁, -, rfl⟩ := seq_ok h
  obtain ⟨_, defs, h₂, -, rfl⟩ := seq_ok h₁
  obtain ⟨_, phis, h₃, hphis, rfl⟩ := seq_ok h₂
  obtain ⟨tid, -, rfl⟩ := map_ok h₃
  exact Fields.listOf_ok (fun _ _ => Phi.check_ok) hphis

theorem Sub.check_ok {d : Sub} (h : Sub.check j = .ok d) : d.Proper := by
  obtain ⟨fs, h⟩ := Check.object_ok h
  obtain ⟨_, blks, h₁, hblks, rfl⟩ := seq_ok h
  obtain ⟨_, args, h₂, -, rfl⟩ := seq_ok h₁
  obtain ⟨_, vars, h₃, -, rfl⟩ := seq_ok h₂
  obtain ⟨_, addr, h₄, -, rfl⟩ := seq_ok h₃
  obtain ⟨_, tid, h₅, -, rfl⟩ := seq_ok h₄
  obtain ⟨name, -, rfl⟩ := map_ok h₅
  exact Fields.listOf_ok (fun _ _ => Blk.check_ok) hblks

theorem Program.check_ok {d : Program} (h : Program.check j = .ok d) : d.Proper := by
  obtain ⟨fs, h⟩ := Check.object_ok h
  obtain ⟨_, subs, h₁, hsubs, rfl⟩ := seq_ok h
  obtain ⟨arch, -, rfl⟩ := map_ok h₁
  exact Fields.listOf_ok (fun _ _ => Sub.check_ok) hsubs

/-! ### The texts of a draft -/

def Label.texts : Label → List String
  | direct _ => []
  | indirect text => [text]

def Jump.texts (d : Jump) : List String :=
  d.cond :: ((d.target.map Label.texts).getD [] ++ (d.ret.map Label.texts).getD [])

def Blk.texts (d : Blk) : List String :=
  d.phis.flatMap (·.values.map (·.2)) ++ d.defs.map (·.rhs) ++ d.jumps.flatMap Jump.texts

/-- The texts that stand for expressions. -/
def Program.texts (d : Program) : List String := d.subs.flatMap (·.blks.flatMap Blk.texts)

end Draft

/-! ### Scopes -/

namespace Load

variable {arch : Arch} {owner : String} {vars : List (String × Int)} {s : Scope}

theorem scope_eq (h : scope arch owner vars = .ok s) :
    s = arch.registers.map (fun v => (v.name, v)) ++
      vars.map fun e => (e.1, (⟨e.1, .word e.2⟩ : Var)) := by
  unfold scope at h
  generalize arch.registers.map (fun v => (v.name, v)) = s₀ at h ⊢
  induction vars generalizing s₀ with
  | nil =>
    cases h
    exact (List.append_nil _).symm
  | cons e vars ih =>
    rw [List.foldlM_cons] at h
    dsimp only at h
    split at h
    · cases h
    · rw [ih _ h, List.append_assoc]
      rfl

/-- A name in scope is the name of a register or of a declared variable. -/
theorem scope_lookup (h : scope arch owner vars = .ok s) {name : String} {v : Var}
    (hv : s.lookup name = some v) :
    v.name = name ∧ (v ∈ arch.registers ∨ ∃ w, vars.lookup name = some w ∧ v = ⟨name, .word w⟩) := by
  rw [scope_eq h, List.lookup_append, Option.or_eq_some_iff] at hv
  rcases hv with hv | ⟨-, hv⟩
  · obtain ⟨l₁, l₂, hl, -⟩ := List.lookup_eq_some_iff.mp hv
    have hmem : (name, v) ∈ arch.registers.map fun v => (v.name, v) := by
      rw [hl]
      exact List.mem_append_right _ List.mem_cons_self
    obtain ⟨u, hu, he⟩ := List.mem_map.mp hmem
    cases he
    exact ⟨rfl, .inl hu⟩
  · clear h
    induction vars with
    | nil => cases hv
    | cons e vars ih =>
      rw [List.map_cons, List.lookup_cons] at hv
      rw [List.lookup_cons]
      by_cases hn : name = e.1
      · subst hn
        rw [beq_self_eq_true] at hv ⊢
        cases hv
        exact ⟨rfl, .inr ⟨_, rfl, rfl⟩⟩
      · rw [beq_false_of_ne hn] at hv ⊢
        exact ih hv

theorem scope_keyed (h : scope arch owner vars = .ok s) : s.Keyed :=
  fun _ _ hv => (scope_lookup h hv).1

/-- A fault of a scope is the fault of a program. -/
theorem scope_error {f : Fault} (h : scope arch owner vars = .error f) :
    ∃ why, f = .config (.program why) := by
  unfold scope at h
  generalize arch.registers.map (fun v => (v.name, v)) = s₀ at h
  induction vars generalizing s₀ with
  | nil => cases h
  | cons e vars ih =>
    rw [List.foldlM_cons] at h
    dsimp only at h
    split at h
    · cases h
      exact ⟨_, rfl⟩
    · exact ih _ h

/-! ### What a draft becomes -/

/-- The expression that a text becomes in a scope, whether the scope is passed down or kept in one
dictionary. -/
structure Reads (s : Scope) (text : String) (e : Exp) : Prop where
  inScope : Exp.ofText s text = .ok e
  inPlace : Exp.readText s text = .ok e
  resolved : e.Resolved s

inductive ReadsLabel (s : Scope) : Draft.Label → Label → Prop
  | direct (tid : String) : ReadsLabel s (.direct tid) (.direct tid)
  | indirect {text : String} {e : Exp} : Reads s text e → ReadsLabel s (.indirect text) (.indirect e)

structure ReadsPhi (s : Scope) (d : Draft.Phi) (p : Phi) : Prop where
  lhs : s.lookup d.lhs = some p.lhs
  values : List.Forall₂ (fun t v => v.1 = t.1 ∧ Reads s t.2 v.2) d.values p.values

structure ReadsDef (s : Scope) (d : Draft.Def) (p : Def) : Prop where
  lhs : s.lookup d.lhs = some p.lhs
  rhs : Reads s d.rhs p.rhs

/-- The action of a jump is read from its labels. A return without a target goes to an unknown
address. -/
inductive ReadsKind (arch : Arch) (s : Scope) (d : Draft.Jump) : JumpKind → Prop
  | goto {t : Draft.Label} {l : Label} : d.kind = .goto → d.target = some t → ReadsLabel s t l →
    ReadsKind arch s d (.goto l)
  | call {t : Draft.Label} {l : Label} {r : Option Label} : d.kind = .call → d.target = some t →
    ReadsLabel s t l → Option.Rel (ReadsLabel s) d.ret r → ReadsKind arch s d (.call l r)
  | ret {t : Draft.Label} {l : Label} : d.kind = .ret → d.target = some t → ReadsLabel s t l →
    ReadsKind arch s d (.ret l)
  | retUnknown : d.kind = .ret → d.target = none →
    ReadsKind arch s d (.ret (.indirect (.unknown "return address" (.word arch.addrSize))))
  | interrupt {tid : String} : d.kind = .interrupt → d.ret = some (.direct tid) →
    ReadsKind arch s d (.interrupt d.number tid)

structure ReadsJump (arch : Arch) (s : Scope) (d : Draft.Jump) (p : Jump) : Prop where
  cond : Reads s d.cond p.cond
  kind : ReadsKind arch s d p.kind

structure ReadsBlk (arch : Arch) (s : Scope) (d : Draft.Blk) (p : Blk) : Prop where
  tid : p.tid = d.tid
  phis : List.Forall₂ (ReadsPhi s) d.phis p.phis
  defs : List.Forall₂ (ReadsDef s) d.defs p.defs
  jumps : List.Forall₂ (ReadsJump arch s) d.jumps p.jumps

/-- A subroutine is its draft with every name and text read in one scope. -/
structure ReadsSub (arch : Arch) (s : Scope) (d : Draft.Sub) (p : Sub) : Prop where
  name : p.name = d.name
  addr : p.addr = d.addr
  args : List.Forall₂ (fun a b => s.lookup a.var = some b.var ∧ b.intent = a.intent) d.args p.args
  blks : List.Forall₂ (ReadsBlk arch s) d.blks p.blks

section

variable {v : Var} {α β : Type}

theorem forall_of_forall₂ {R : α → β → Prop} {P : β → Prop} {as : List α} {bs : List β}
    (h : List.Forall₂ R as bs) (hP : ∀ {a b}, R a b → P b) : ∀ b ∈ bs, P b := by
  induction h with
  | nil => exact nofun
  | cons hab _ ih => exact List.forall_mem_cons.mpr ⟨hP hab, ih⟩

/-- A variable is the one that its name stands for in the scope. -/
def InScope (s : Scope) (v : Var) : Prop := s.lookup v.name = some v

/-- All variables are those of the scope. -/
def AllInScope (s : Scope) (vars : List Var) : Prop := ∀ v ∈ vars, InScope s v

theorem Reads.allInScope {text : String} {e : Exp} (h : Reads s text e) : AllInScope s e.freeVars :=
  fun _ hv => h.resolved.lookup hv

theorem inScope_of_lookup (hs : s.Keyed) {name : String} (h : s.lookup name = some v) :
    InScope s v := by
  rw [InScope, hs name v h]
  exact h

theorem allInScope_flatMap {as : List α} {f : α → List Var} (h : ∀ a ∈ as, AllInScope s (f a)) :
    AllInScope s (as.flatMap f) := by
  intro v hv
  obtain ⟨a, ha, hv⟩ := List.mem_flatMap.mp hv
  exact h a ha v hv

theorem ReadsLabel.allInScope {d : Draft.Label} {l : Label} (h : ReadsLabel s d l) :
    AllInScope s (l.exps.flatMap Exp.freeVars) := by
  cases h with
  | direct => exact nofun
  | indirect h => exact allInScope_flatMap (by simpa [Label.exps] using h.allInScope)

theorem ReadsPhi.allInScope (hs : s.Keyed) {d : Draft.Phi} {p : Phi} (h : ReadsPhi s d p) :
    AllInScope s (Elt.phi p).vars :=
  List.forall_mem_cons.mpr ⟨inScope_of_lookup hs h.lhs,
    allInScope_flatMap (forall_of_forall₂ h.values fun ⟨_, hread⟩ => hread.allInScope)⟩

theorem ReadsDef.allInScope (hs : s.Keyed) {d : Draft.Def} {p : Def} (h : ReadsDef s d p) :
    AllInScope s (Elt.define p).vars :=
  List.forall_mem_cons.mpr ⟨inScope_of_lookup hs h.lhs, h.rhs.allInScope⟩

theorem ReadsKind.allInScope {d : Draft.Jump} {cond : Exp} {k : JumpKind} {tid : String}
    (h : ReadsKind arch s d k) (hcond : AllInScope s cond.freeVars) :
    AllInScope s (Elt.jump ⟨k, cond, tid⟩).vars := by
  have hexps : AllInScope s ((Jump.exps ⟨k, cond, tid⟩).tail.flatMap Exp.freeVars) := by
    cases h with
    | goto _ _ hl | ret _ _ hl => exact hl.allInScope
    | call _ _ hl hr =>
      rw [Jump.exps, List.tail_cons, List.flatMap_append]
      refine List.forall_mem_append.mpr ⟨hl.allInScope, ?_⟩
      generalize d.ret = r at hr
      cases hr with
      | none => exact nofun
      | some hr => exact hr.allInScope
    | retUnknown _ _ | interrupt _ _ => exact nofun
  exact List.forall_mem_append.mpr ⟨hcond, hexps⟩

theorem ReadsBlk.allInScope (hs : s.Keyed) {d : Draft.Blk} {b : Blk} (h : ReadsBlk arch s d b) :
    AllInScope s b.vars := by
  refine allInScope_flatMap fun x hx => ?_
  rcases List.mem_append.mp hx with hx | hx
  · rcases List.mem_append.mp hx with hx | hx
    · obtain ⟨p, hp, rfl⟩ := List.mem_map.mp hx
      exact forall_of_forall₂ h.phis (fun hr => hr.allInScope hs) p hp
    · obtain ⟨p, hp, rfl⟩ := List.mem_map.mp hx
      exact forall_of_forall₂ h.defs (fun hr => hr.allInScope hs) p hp
  · obtain ⟨p, hp, rfl⟩ := List.mem_map.mp hx
    exact forall_of_forall₂ h.jumps (fun hr => hr.kind.allInScope hr.cond.allInScope) p hp

/-- What a subroutine reads and writes is in scope. -/
theorem ReadsSub.allInScope (hs : s.Keyed) {d : Draft.Sub} {p : Sub} (h : ReadsSub arch s d p) :
    AllInScope s p.vars := by
  intro v hv
  rcases List.mem_append.mp (List.mem_eraseDups.mp hv) with hv | hv
  · obtain ⟨a, ha, rfl⟩ := List.mem_map.mp hv
    exact forall_of_forall₂ h.args (fun hr => inScope_of_lookup hs hr.1) a ha
  · exact allInScope_flatMap (forall_of_forall₂ h.blks fun hr => hr.allInScope hs) v hv

end

/-! ### Loading -/

/-- A fault that comes from a datum in one of the texts and is not reported. -/
def Escaping (texts : List String) (f : Fault) : Prop :=
  ∃ text ∈ texts, ∃ x, Sexp.ofText? text = some x ∧
    ∃ (y : Sexp) (g : ExpFault), y.Within x ∧ y.Escapes g ∧ g.bare? = some f

/-- A fault that tells that one of the texts is no expression, or what else is wrong with a program;
only what escapes is not told. -/
def Reported (texts : List String) (f : Fault) : Prop :=
  (∃ why, f = .config (.program why)) ∨ Escaping texts f

/-- Loading ends in a value or a fault of which something is known, whatever names have been made. -/
def Concludes {α : Type} (P : α → Prop) (F : Fault → Prop) (act : Load α) : Prop :=
  ∀ n, EndsIn (fun r => P r.1) F (act n)

section

variable {α β : Type} {P : α → Prop} {Q : β → Prop} {F : Fault → Prop} {texts : List String}

namespace Concludes

theorem pure {a : α} (h : P a) : Concludes P F (Pure.pure a) := fun _ => h

theorem bind {x : Load α} {k : α → Load β} (hx : Concludes P F x)
    (hk : ∀ a, P a → Concludes Q F (k a)) : Concludes Q F (x >>= k) :=
  fun n => (hx n).bind fun r hr => hk r.1 hr r.2

theorem lift {x : Except Fault α} (h : EndsIn P F x) : Concludes P F (liftM x : Load α) := by
  intro n
  cases x <;> exact h

theorem fail {why : ProgramFault} : Concludes P (Reported texts) (Load.fail why) :=
  fun _ => .inl ⟨why, rfl⟩

theorem mapM {R : α → β → Prop} {as : List α} {f : α → Load β}
    (h : ∀ a ∈ as, Concludes (R a) F (f a)) : Concludes (List.Forall₂ R as) F (as.mapM f) := by
  induction as with
  | nil => exact pure .nil
  | cons a as ih =>
    obtain ⟨ha, has⟩ := List.forall_mem_cons.mp h
    rw [List.mapM_cons]
    exact ha.bind fun b hb => (ih has).bind fun bs hbs => pure (.cons hb hbs)

end Concludes

theorem tidOr_concludes (tid : Option String) : Concludes (fun _ => True) F (tidOr tid) := by
  unfold tidOr
  split <;> exact fun _ => trivial

theorem exp_concludes (hs : s.Keyed) {text : String} (ht : text ∈ texts) :
    Concludes (Reads s text) (Reported texts) (liftM (exp s text) : Load Exp) := by
  refine .lift ?_
  unfold exp
  cases htext : Exp.ofText s text with
  | ok e =>
    have hresolved : e.Resolved s := by
      unfold Exp.ofText at htext
      split at htext
      · exact (Exp.ofSexp_ends _ s).of_ok htext hs
      · cases htext
    exact ⟨htext, (Exp.readText_eq s text).trans htext, hresolved⟩
  | error f =>
    unfold Exp.ofText at htext
    split at htext
    · rename_i x hx
      have hends := Exp.ofSexp_ends x s
      rw [htext] at hends
      obtain ⟨-, hbare⟩ | ⟨y, hy, hescapes⟩ := hends
      · exact .inl ⟨_, by rw [hbare]; rfl⟩
      · obtain ⟨g, hg⟩ := hescapes.bare
        exact .inr ⟨text, ht, x, hx, y, f, hy, hescapes, by rw [hg]; rfl⟩
    · cases htext
      exact .inl ⟨_, rfl⟩

theorem lookup_concludes (place name : String) :
    Concludes (fun v => s.lookup name = some v) (Reported texts) (lookup s place name) := by
  unfold lookup
  split
  · exact .pure ‹_›
  · exact .fail

theorem label_concludes (hs : s.Keyed) {d : Draft.Label} (ht : d.texts ⊆ texts) :
    Concludes (ReadsLabel s d) (Reported texts) (label s d) := by
  cases d with
  | direct tid => exact .pure (.direct tid)
  | indirect text =>
    exact (exp_concludes hs (ht List.mem_cons_self)).bind fun e he => .pure (.indirect he)

theorem labelOpt_concludes (hs : s.Keyed) {d : Option Draft.Label}
    (ht : (d.map Draft.Label.texts).getD [] ⊆ texts) :
    Concludes (Option.Rel (ReadsLabel s) d) (Reported texts) (labelOpt s d) := by
  cases d with
  | none => exact .pure .none
  | some d => exact (label_concludes hs ht).bind fun l hl => .pure (.some hl)

theorem phi_concludes (hs : s.Keyed) (place : String) {d : Draft.Phi} (hd : d.values ≠ [])
    (ht : d.values.map (·.2) ⊆ texts) :
    Concludes (ReadsPhi s d) (Reported texts) (phi s place d) := by
  refine (lookup_concludes place d.lhs).bind fun lhs hlhs => ?_
  have hvalues : Concludes (List.Forall₂ (fun t v => v.1 = t.1 ∧ Reads s t.2 v.2) d.values)
      (Reported texts) (d.values.mapM fun t => do return (t.1, ← exp s t.2)) :=
    .mapM fun t htv => (exp_concludes hs (ht (List.mem_map_of_mem htv))).bind fun e he =>
      .pure ⟨rfl, he⟩
  refine hvalues.bind fun values hvalues => (tidOr_concludes d.tid).bind fun tid _ => ?_
  have hne : values ≠ [] := by
    rintro rfl
    exact hd (List.forall₂_nil_right_iff.mp hvalues)
  rw [dif_pos hne]
  exact .pure ⟨hlhs, hvalues⟩

theorem define_concludes (hs : s.Keyed) (place : String) {d : Draft.Def} (ht : d.rhs ∈ texts) :
    Concludes (ReadsDef s d) (Reported texts) (define s place d) :=
  (lookup_concludes place d.lhs).bind fun _ hlhs => (exp_concludes hs ht).bind fun _ hrhs =>
    (tidOr_concludes d.tid).bind fun _ _ => .pure ⟨hlhs, hrhs⟩

theorem jumpKind_concludes (hs : s.Keyed) (place : String) {d : Draft.Jump} {target : Option Label}
    (htarget : Option.Rel (ReadsLabel s) d.target target)
    (ht : (d.ret.map Draft.Label.texts).getD [] ⊆ texts) :
    Concludes (ReadsKind arch s d) (Reported texts) (jumpKind arch s place d target) := by
  unfold jumpKind
  cases hkind : d.kind with
  | goto =>
    cases htgt : d.target <;> rw [htgt] at htarget <;> cases htarget
    case none => exact .fail
    case some t l hl => exact .pure (.goto hkind htgt hl)
  | call =>
    cases htgt : d.target <;> rw [htgt] at htarget <;> cases htarget
    case none => exact .fail
    case some t l hl =>
      exact (labelOpt_concludes hs ht).bind fun r hr => .pure (.call hkind htgt hl hr)
  | ret =>
    cases htgt : d.target <;> rw [htgt] at htarget <;> cases htarget
    case none => exact .pure (.retUnknown hkind htgt)
    case some t l hl => exact .pure (.ret hkind htgt hl)
  | interrupt =>
    dsimp only
    split
    · exact .pure (.interrupt hkind ‹_›)
    · exact .fail

theorem jump_concludes (hs : s.Keyed) (place : String) {d : Draft.Jump} (ht : d.texts ⊆ texts) :
    Concludes (ReadsJump arch s d) (Reported texts) (jump arch s place d) := by
  obtain ⟨hcond, hlabels⟩ := List.cons_subset.mp ht
  obtain ⟨htarget, hret⟩ := List.append_subset.mp hlabels
  exact (exp_concludes hs hcond).bind fun cond hcond => (tidOr_concludes d.tid).bind fun tid _ =>
    (labelOpt_concludes hs htarget).bind fun target htarget =>
      (jumpKind_concludes hs place htarget hret).bind fun kind hkind => .pure ⟨hcond, hkind⟩

theorem subset_of_mem_flatMap {a : α} {as : List α} {f : α → List String} (ha : a ∈ as)
    (h : as.flatMap f ⊆ texts) : f a ⊆ texts :=
  fun _ hx => h (List.mem_flatMap.mpr ⟨a, ha, hx⟩)

theorem blk_concludes (hs : s.Keyed) {d : Draft.Blk} (hd : d.Proper) (ht : d.texts ⊆ texts) :
    Concludes (ReadsBlk arch s d) (Reported texts) (blk arch s owner d) := by
  obtain ⟨ht, hjumps⟩ := List.append_subset.mp ht
  obtain ⟨hphis, hdefs⟩ := List.append_subset.mp ht
  have phis : Concludes (List.Forall₂ (ReadsPhi s) d.phis) (Reported texts)
      (d.phis.mapM (phi s (owner ++ "/" ++ d.tid))) :=
    .mapM fun p hp => phi_concludes hs _ (hd p hp)
      (subset_of_mem_flatMap (f := fun p => p.values.map (·.2)) hp hphis)
  have defs : Concludes (List.Forall₂ (ReadsDef s) d.defs) (Reported texts)
      (d.defs.mapM (define s (owner ++ "/" ++ d.tid))) :=
    .mapM fun p hp => define_concludes hs _ (hdefs (List.mem_map_of_mem hp))
  have jumps : Concludes (List.Forall₂ (ReadsJump arch s) d.jumps) (Reported texts)
      (d.jumps.mapM (jump arch s (owner ++ "/" ++ d.tid))) :=
    .mapM fun p hp => jump_concludes hs _ (subset_of_mem_flatMap hp hjumps)
  exact phis.bind fun _ hphis => defs.bind fun _ hdefs => jumps.bind fun _ hjumps =>
    .pure ⟨rfl, hphis, hdefs, hjumps⟩

theorem sub_concludes (arch : Arch) {d : Draft.Sub} (hd : d.Proper)
    (ht : d.blks.flatMap Draft.Blk.texts ⊆ texts) :
    Concludes (fun p => ∃ s, scope arch d.name d.vars = .ok s ∧ ReadsSub arch s d p) (Reported texts)
      (Load.sub arch d) := by
  have hscope : Concludes (fun s => scope arch d.name d.vars = .ok s) (Reported texts)
      (liftM (scope arch d.name d.vars) : Load Scope) := by
    refine .lift ?_
    cases h : scope arch d.name d.vars with
    | ok s => exact rfl
    | error f => exact .inl (scope_error h)
  refine hscope.bind fun s hs => ?_
  have hkeyed := scope_keyed hs
  have hargs : Concludes
      (List.Forall₂ (fun a b => s.lookup a.var = some b.var ∧ b.intent = a.intent) d.args)
      (Reported texts)
      (d.args.mapM fun a => do return (⟨← lookup s d.name a.var, a.intent⟩ : Arg)) :=
    .mapM fun a _ => (lookup_concludes d.name a.var).bind fun v hv => .pure ⟨hv, rfl⟩
  have hblks : Concludes (List.Forall₂ (ReadsBlk arch s) d.blks) (Reported texts)
      (d.blks.mapM (blk arch s d.name)) :=
    .mapM fun b hb => blk_concludes hkeyed (hd b hb) (subset_of_mem_flatMap hb ht)
  exact hblks.bind fun _ hblks => hargs.bind fun _ hargs => .pure ⟨s, hs, rfl, rfl, hargs, hblks⟩

/-- A program is its draft with each subroutine read in its own scope. -/
structure ReadsProgram (d : Draft.Program) (p : Program) : Prop where
  arch : Arch.ofName? d.arch = some p.arch
  subs : List.Forall₂ (fun ds s => ∃ scope, Load.scope p.arch ds.name ds.vars = .ok scope ∧
    ReadsSub p.arch scope ds s) d.subs p.subs

theorem draft_concludes {d : Draft.Program} (hd : d.Proper) :
    Concludes (ReadsProgram d) (Reported d.texts) (draft d) := by
  unfold draft
  cases harch : Arch.ofName? d.arch with
  | none => exact .fail
  | some arch =>
    have hsubs : Concludes (List.Forall₂ (fun ds s => ∃ scope, Load.scope arch ds.name ds.vars =
        .ok scope ∧ ReadsSub arch scope ds s) d.subs) (Reported d.texts) (d.subs.mapM (Load.sub arch)) :=
      .mapM fun s hs => sub_concludes arch (hd s hs)
        (subset_of_mem_flatMap (f := fun s => s.blks.flatMap Draft.Blk.texts) hs fun _ hx => hx)
    exact hsubs.bind fun subs hsubs => .pure ⟨harch, hsubs⟩

theorem check_ok {j : Json} {d : Draft.Program} (h : draftOf.check j = .ok d) : d.Proper := by
  unfold draftOf.check at h
  split at h <;> cases h
  exact Draft.Program.check_ok ‹_›

theorem draftOf_ok {j : Json} {d : Draft.Program} (h : draftOf j = .ok d) : d.Proper := by
  unfold draftOf at h
  split at h
  · split at h
    · exact check_ok h
    · cases h
    · cases h
  · exact check_ok h

theorem draftOf_error {j : Json} {f : Fault} (h : draftOf j = .error f) :
    (∃ why, f = .config (.program why)) ∨
      f = .badDigits ∧ ∃ text, j = .str text ∧ Json.ofText text = .error .longInteger := by
  have hcheck {j : Json} (h : draftOf.check j = .error f) : ∃ why, f = .config (.program why) := by
    unfold draftOf.check at h
    split at h <;> cases h
    exact ⟨_, rfl⟩
  unfold draftOf at h
  split at h
  · rename_i text
    split at h
    · exact .inl (hcheck h)
    · cases h
      exact .inl ⟨_, rfl⟩
    · cases h
      exact .inr ⟨rfl, text, rfl, ‹_›⟩
  · exact .inl (hcheck h)

theorem program_eq (j : Json) (n : Nat) : program j n = (draftOf j).bind fun d => draft d n := by
  change ((liftM (draftOf j) : Load Draft.Program) >>= draft) n = _
  cases draftOf j <;> rfl

/-- Loading resolves names lexically. Every text of an accepted program becomes the expression that is
read in the scope of its subroutine, passed down or kept in one dictionary, and each variable in it is
the one that its name stands for at its place; so what a subroutine reads and writes are registers and
variables that it declares with this type. -/
theorem program_lexical {j : Json} {n n' : Nat} {p : Program} (h : program j n = .ok (p, n')) :
    ∃ d, draftOf j = .ok d ∧ Arch.ofName? d.arch = some p.arch ∧
      List.Forall₂ (fun ds s => ∃ scope, Load.scope p.arch ds.name ds.vars = .ok scope ∧
        ReadsSub p.arch scope ds s ∧
        ∀ v ∈ s.vars, v ∈ p.arch.registers ∨
          ∃ w, ds.vars.lookup v.name = some w ∧ v.type = .word w) d.subs p.subs := by
  rw [program_eq] at h
  cases hd : draftOf j with
  | error f =>
    rw [hd] at h
    cases h
  | ok d =>
    rw [hd] at h
    obtain ⟨harch, hsubs⟩ := (draft_concludes (draftOf_ok hd) n).of_ok h
    refine ⟨d, rfl, harch, hsubs.imp fun ds s ⟨scope, hscope, hread⟩ => ⟨scope, hscope, hread, ?_⟩⟩
    intro v hv
    have hlookup := hread.allInScope (scope_keyed hscope) v hv
    refine (scope_lookup hscope hlookup).2.imp_right fun ⟨w, hw, hv⟩ => ⟨w, hw, ?_⟩
    rw [hv]

/-- Bindings of the name of a declared variable and of a register, under each other. -/
def shadowing : Json := .obj [("arch", .str "arm"), ("subs", .arr [.obj [("name", .str "f"),
  ("vars", .obj [("t", .int 8)]), ("blks", .arr [.obj [("tid", .str "%b"), ("defs", .arr [.obj
    [("lhs", .str "t"), ("rhs", .str "(+ (let R0:8 t (let t:32 1:32 (cast low 8 t))) t)")]])]])]])]

theorem program_lexical_shadowing :
    ∃ p n, program shadowing 1 = .ok (p, n) ∧ p.subs.map Sub.vars = [[⟨"t", .word 8⟩]] ∧
      ∃ d, draftOf shadowing = .ok d ∧
        List.Forall₂ (fun ds s => ∃ scope, Load.scope p.arch ds.name ds.vars = .ok scope ∧
          ReadsSub p.arch scope ds s) d.subs p.subs := by
  have hload : ((program shadowing 1).map fun r => r.1.subs.map Sub.vars) =
      .ok [[⟨"t", .word 8⟩]] := by decide +kernel
  cases h : program shadowing 1 with
  | error f =>
    rw [h] at hload
    cases hload
  | ok r =>
    rw [h] at hload
    obtain ⟨d, hd, -, hsubs⟩ := program_lexical h
    exact ⟨r.1, r.2, rfl, Except.ok.inj hload, d, hd,
      hsubs.imp fun ds s ⟨scope, hscope, hread, _⟩ => ⟨scope, hscope, hread⟩⟩

/-- Whatever data is loaded, a program comes out of it or the fault of a program, unless something in
one of its texts escapes, or its own text has an integer with too many digits. A datum is likewise an
expression or has a fault that tells what is wrong with it, but for what escapes: a binding of a name
whose width is no numeral, and a literal whose width has no power of two, which have their own faults
wherever they are read. -/
theorem program_reports (x : Sexp) (s : Scope) (j : Json) (n : Nat) :
    (∀ f, x.Escapes f → Exp.ofSexp x s = .error f ∧ ¬ f.Named) ∧
    ((∃ e, Exp.ofSexp x s = .ok e) ∨
      (∃ f, Exp.ofSexp x s = .error f ∧ f.Named) ∨
      ∃ f, Exp.ofSexp x s = .error f ∧ ∃ y : Sexp, y.Within x ∧ y.Escapes f) ∧
    ((∃ r, program j n = .ok r) ∨
      (∃ why, program j n = .error (.config (.program why))) ∨
      (∃ d f, draftOf j = .ok d ∧ program j n = .error f ∧ Escaping d.texts f) ∨
      ∃ text, j = .str text ∧ Json.ofText text = .error .longInteger ∧
        program j n = .error .badDigits) := by
  refine ⟨fun f h => ⟨Exp.ofSexp_of_escapes h s, fun hnamed => ?_⟩, ?_, ?_⟩
  · obtain ⟨g, hg⟩ := h.bare
    rw [hnamed.2] at hg
    cases hg
  · have hends := Exp.ofSexp_ends x s
    cases hx : Exp.ofSexp x s with
    | ok e => exact .inl ⟨e, rfl⟩
    | error f =>
      rw [hx] at hends
      exact .inr (hends.imp (fun hf => ⟨f, rfl, hf⟩) fun hf => ⟨f, rfl, hf⟩)
  · rw [program_eq]
    cases hd : draftOf j with
    | error f =>
      obtain ⟨why, rfl⟩ | ⟨rfl, text, hj, htext⟩ := draftOf_error hd
      · exact .inr (.inl ⟨why, rfl⟩)
      · exact .inr (.inr (.inr ⟨text, hj, htext, rfl⟩))
    | ok d =>
      have hends := draft_concludes (draftOf_ok hd) n
      change (∃ r, draft d n = .ok r) ∨ (∃ why, draft d n = _) ∨
        (∃ d' f, _ ∧ draft d n = _ ∧ _) ∨ ∃ text, _ ∧ _ ∧ draft d n = _
      cases hr : draft d n with
      | ok r => exact .inl ⟨r, rfl⟩
      | error f =>
        rw [hr] at hends
        obtain ⟨why, rfl⟩ | hescaping := hends
        · exact .inr (.inl ⟨why, rfl⟩)
        · exact .inr (.inr (.inl ⟨d, f, rfl, rfl, hescaping⟩))

/-- A binding whose width is a superscript. -/
def raised : Sexp := .list [.symbol "let", .symbol "t:²", .symbol "R0", .symbol "t"]

/-- A literal of so many bits that their number has more digits than can be counted. -/
def wide : Sexp := .symbol "1:99999999999999999999"

/-- A subroutine that assigns the value of a text. -/
def assigning (text : String) : Json := .obj [("arch", .str "arm"), ("subs", .arr [.obj
  [("name", .str "f"), ("vars", .obj []), ("blks", .arr [.obj [("tid", .str "%b"), ("defs",
    .arr [.obj [("lhs", .str "R0"), ("rhs", .str text)]])]])]])]

theorem program_reports_raised :
    Exp.ofSexp raised [] = .error .badWidth ∧ Exp.ofSexp wide [] = .error .overflow ∧
      (∃ d, draftOf (assigning "(let t:² R0 t)") = .ok d ∧
        program (assigning "(let t:² R0 t)") 1 = .error .badDigits ∧ Escaping d.texts .badDigits) ∧
      ∃ d, draftOf (assigning "1:99999999999999999999") = .ok d ∧
        program (assigning "1:99999999999999999999") 1 = .error .overflow ∧
          Escaping d.texts .overflow := by
  have hall : "²".toList.all Text.isDigit = true := by decide +kernel
  have hraised : raised.Escapes .badWidth := .inl ⟨rfl, _, _, _, rfl, "t:²", "²", rfl, rfl,
    List.cons_ne_nil _ _, List.all_eq_true.mp hall, .inl ⟨'²', List.mem_singleton_self _, rfl⟩⟩
  have hwide : wide.Escapes .overflow := .inr ⟨_, "1", "99999999999999999999", 1,
    99999999999999999999, rfl, rfl, by decide +kernel, by decide +kernel, by decide +kernel⟩
  have hdigits : ((program (assigning "(let t:² R0 t)") 1).map fun _ => ()) = .error .badDigits := by
    decide +kernel
  have hoverflow : ((program (assigning "1:99999999999999999999") 1).map fun _ => ()) =
      .error .overflow := by decide +kernel
  have reads (text : String) (f : Fault) (hf : ∀ why, f ≠ .config (.program why))
      (h : ((program (assigning text) 1).map fun _ => ()) = .error f) :
      ∃ d, draftOf (assigning text) = .ok d ∧ program (assigning text) 1 = .error f ∧
        Escaping d.texts f := by
    obtain ⟨-, -, ⟨r, hr⟩ | ⟨why, hwhy⟩ | ⟨d, g, hd, hg, hescaping⟩ | ⟨t, ht, -⟩⟩ :=
      program_reports raised [] (assigning text) 1
    · rw [hr] at h
      cases h
    · rw [hwhy] at h
      exact absurd (Except.error.inj h).symm (hf why)
    · rw [hg] at h
      exact ⟨d, hd, hg.trans (congrArg _ (Except.error.inj h)), Except.error.inj h ▸ hescaping⟩
    · cases ht
  obtain ⟨hbinding, -⟩ := program_reports raised [] .null 1
  obtain ⟨hliteral, -⟩ := program_reports wide [] .null 1
  exact ⟨(hbinding _ hraised).1, (hliteral _ hwide).1, reads _ _ nofun hdigits,
    reads _ _ nofun hoverflow⟩

end

end Load

end Precond

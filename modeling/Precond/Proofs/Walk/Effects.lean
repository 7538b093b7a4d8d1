import Precond.Proofs.Env.Gives
import Precond.Proofs.Walk.TameSub

/-! What a call replaces. A summary gives each output a function of the inputs, a return marks the callee
as called and may move the stack pointer, and no term is replaced twice (`Env.Replaces`). To ask for the
terms of a call fails only where a variable has no sort, where the stack pointer is no word, or where a
function has been declared with another signature (`Walk.summaryPairs_fetches`). -/

namespace Precond

open IR

/-- Each function of a summary has one signature: none is declared with another one, and outputs of one
name are one variable. -/
structure Env.Unambiguous (e : Env) (rule : CallRule) (callee : Sub) : Prop where
  declared : e.Summarizes callee rule out f → e.funcs.lookup f.name = some g → g = f
  outputs : out ∈ (e.interface rule callee).2 → out' ∈ (e.interface rule callee).2 →
    out.name = out'.name → out = out'

/-- What a return makes of the stack pointer. -/
inductive Env.Pops (e : Env) : SomeTerm × SomeTerm → Prop
  | sp {w : Nat} {x : Term (.bv w)} : e.arch.sp.type.sort = .ok (.bv w) →
    e.vars.lookup e.arch.sp = some ⟨.bv w, x⟩ →
    Env.Pops e (⟨.bv w, x⟩, ⟨.bv w, .bin .add x (.numeral w (e.arch.addrSize / 8 : Nat))⟩)

/-- What a return makes of the flag of its callee. -/
inductive Env.Marks (e : Env) (callee : Sub) : SomeTerm × SomeTerm → Prop
  | flag {p : Term .bool} : e.called.lookup (e.canonical callee.name) = some p →
    Env.Marks e callee (⟨.bool, p⟩, ⟨.bool, .truth true⟩)

/-- What a call replaces that gives variables new values. The stack pointer is moved unless it is given a
value. -/
structure Env.Replaces (e : Env) (callee : Sub) (values : List (Var × SomeTerm))
    (pairs : List (SomeTerm × SomeTerm)) : Prop where
  marks : ∃ p ∈ pairs, e.Marks callee p
  gives : c ∈ values → ∃ old, e.vars.lookup c.1 = some old ∧ (old, c.2) ∈ pairs
  pops : e.arch.popsReturnAddr = true → (∀ c ∈ values, c.1 ≠ e.arch.sp) → ∃ p ∈ pairs, e.Pops p
  only : p ∈ pairs → e.Marks callee p ∨ (∃ c ∈ values, e.vars.lookup c.1 = some p.1 ∧ p.2 = c.2) ∨
    (e.arch.popsReturnAddr = true ∧ (∀ c ∈ values, c.1 ≠ e.arch.sp) ∧ e.Pops p)

theorem Env.Pops.ne_bool {e : Env} {p : SomeTerm × SomeTerm} (h : e.Pops p) : p.1.1 ≠ .bool := by
  cases h
  exact nofun

/-- What the terms of a summary take for granted: all variables are of sorts, the stack pointer is a
word, there is a register for results, and functions have one signature. -/
structure Env.Summarizable (e : Env) (rule : CallRule) (callee : Sub) : Prop
    extends e.Unambiguous rule callee where
  sorted : v ∈ (e.interface rule callee).1 ++ (e.interface rule callee).2 → v.sorted
  sp : ∃ n, e.arch.sp.type.sort = .ok (.bv n)
  returns : e.arch.returnReg.isSome

/-- The term is the function of an output of a summary, of the arguments. -/
def Env.Results (e : Env) (rule : CallRule) (callee : Sub) (args : List SomeTerm) (out : Var)
    (new : SomeTerm) : Prop :=
  ∃ f, f.name = e.canonical callee.name ++ "_" ++ out.name ∧
    (e.Summarizable rule callee → e.Summarizes callee rule out f) ∧ f.apply args = .ok new

/-- The pairs of a summary: each output gets its function of the arguments. -/
def Env.Sums (e : Env) (rule : CallRule) (callee : Sub) (e' : Env) (pairs : List (SomeTerm × SomeTerm)) :
    Prop :=
  ∃ args news, List.Forall₂ (fun v t => e'.vars.lookup v = some t) (e.interface rule callee).1 args ∧
    List.Forall₂ (e.Results rule callee args) (e.interface rule callee).2 news ∧
    e'.Replaces callee ((e.interface rule callee).2.zip news) pairs

/-! ### Pairs that are added -/

/-- The pairs, with others whose old terms are in no pair yet. -/
def joined (ps qs : List (SomeTerm × SomeTerm)) : List (SomeTerm × SomeTerm) :=
  qs.foldl (fun pairs p => if pairs.any fun q => p.1.same q.1 then pairs else pairs ++ [p]) ps

theorem mem_joined {ps qs : List (SomeTerm × SomeTerm)} {p : SomeTerm × SomeTerm}
    (hp : p ∈ joined ps qs) : p ∈ ps ∨ p ∈ qs ∧ ∀ q ∈ ps, p.1.same q.1 = false := by
  induction qs generalizing ps with
  | nil => exact .inl hp
  | cons q qs ih =>
    rw [joined, List.foldl_cons] at hp
    split at hp
    · exact (ih hp).imp_right fun ⟨hqs, hnot⟩ => ⟨List.mem_cons_of_mem q hqs, hnot⟩
    · rename_i hnew
      rcases ih hp with hp | ⟨hqs, hnot⟩
      · rcases List.mem_append.mp hp with hp | hp
        · exact .inl hp
        · rw [List.mem_singleton.mp hp]
          have hnot := List.any_eq_false.mp (Bool.eq_false_iff.mpr hnew)
          exact .inr ⟨List.mem_cons_self, fun r hr => Bool.eq_false_iff.mpr (hnot r hr)⟩
      · exact .inr ⟨List.mem_cons_of_mem q hqs, fun r hr => hnot r (List.mem_append_left _ hr)⟩

theorem mem_joined_of_mem {ps qs : List (SomeTerm × SomeTerm)} {p : SomeTerm × SomeTerm} (hp : p ∈ ps) :
    p ∈ joined ps qs := by
  induction qs generalizing ps with
  | nil => exact hp
  | cons q qs ih =>
    rw [joined, List.foldl_cons]
    split
    · exact ih hp
    · exact ih (List.mem_append_left _ hp)

theorem eq_const_of_const_same {d : List TSort} {r : TSort} (x : Spine d r)
    (h : (Spine.const n s).same x = true) : d = [] ∧ r = s ∧ HEq x (Spine.const n s) := by
  cases x with
  | const n' =>
    obtain ⟨hn, hs⟩ := Bool.and_eq_true_iff.mp (show (n == n' && s == r) = true from h)
    cases eq_of_beq hn
    cases eq_of_beq hs
    exact ⟨rfl, rfl, .rfl⟩
  | op f => exact absurd h Bool.false_ne_true
  | app f x => exact absurd h Bool.false_ne_true

/-- The old term of an effect is in a pair afterwards. -/
theorem joined_of_mem {qs : List (SomeTerm × SomeTerm)} {n : String} {s : TSort} {x : SomeTerm}
    (ps : List (SomeTerm × SomeTerm)) (hp : (⟨s, .const n s⟩, x) ∈ qs) :
    ∃ y, (⟨s, .const n s⟩, y) ∈ joined ps qs := by
  induction qs generalizing ps with
  | nil => cases hp
  | cons q qs ih =>
    rw [joined, List.foldl_cons]
    rcases List.mem_cons.mp hp with rfl | hp
    · split
      · rename_i hsame
        obtain ⟨⟨⟨s', old⟩, y⟩, hmem, hold⟩ := List.any_eq_true.mp hsame
        obtain ⟨-, rfl, hconst⟩ := eq_const_of_const_same old hold
        rw [eq_of_heq hconst] at hmem
        exact ⟨y, mem_joined_of_mem hmem⟩
      · exact ⟨x, mem_joined_of_mem (List.mem_append_right _ List.mem_cons_self)⟩
    · split
      · exact ih _ hp
      · exact ih _ hp

/-- Effects of a return join new values of variables. -/
theorem Env.Replaces.joined {e : Env} {callee : Sub} {values : List (Var × SomeTerm)}
    {ps qs : List (SomeTerm × SomeTerm)} (ht : e.Tidy)
    (hgives : ∀ c ∈ values, ∃ old, e.vars.lookup c.1 = some old ∧ (old, c.2) ∈ ps)
    (honly : ∀ p ∈ ps, ∃ c ∈ values, e.vars.lookup c.1 = some p.1 ∧ p.2 = c.2)
    (hq : e.Replaces callee [] qs) : e.Replaces callee values (joined ps qs) := by
  have heffect {p : SomeTerm × SomeTerm} (hp : p ∈ qs) :
      e.Marks callee p ∨ e.arch.popsReturnAddr = true ∧ e.Pops p := by
    rcases hq.only hp with hmark | ⟨c, hc, -⟩ | ⟨hpops, -, hpop⟩
    · exact .inl hmark
    · cases hc
    · exact .inr ⟨hpops, hpop⟩
  have hsort {p : SomeTerm × SomeTerm} (hp : p ∈ ps) : p.1.1 ≠ .bool := by
    obtain ⟨c, -, hl, -⟩ := honly p hp
    obtain ⟨n, s, hs, htype, -⟩ := ht.vars hl
    rw [hs]
    exact Ty.sort_ne_bool htype
  refine ⟨?_, fun {c} hc => ?_, fun hpops hnot => ?_, fun {p} hp => ?_⟩
  · -- no variable is replaced in place of the flag
    obtain ⟨_, hmem, ⟨hl⟩⟩ := hq.marks
    obtain ⟨n, rfl, -⟩ := ht.called hl
    obtain ⟨y, hy⟩ := joined_of_mem ps hmem
    rcases mem_joined hy with hy' | ⟨hy', -⟩
    · exact absurd rfl (hsort hy')
    · rcases heffect hy' with hmark | ⟨-, hpop⟩
      · exact ⟨_, hy, hmark⟩
      · exact absurd rfl hpop.ne_bool
  · obtain ⟨old, hl, hmem⟩ := hgives c hc
    exact ⟨old, hl, mem_joined_of_mem hmem⟩
  · obtain ⟨_, hmem, ⟨hs, hl⟩⟩ := hq.pops hpops nofun
    obtain ⟨n, s, hconst, -, -⟩ := ht.vars hl
    cases hconst
    obtain ⟨y, hy⟩ := joined_of_mem ps hmem
    rcases mem_joined hy with hy' | ⟨hy', -⟩
    · obtain ⟨c, hc, hlc, -⟩ := honly _ hy'
      exact absurd (ht.named.inj hlc hl) (hnot c hc)
    · rcases heffect hy' with hmark | ⟨-, hpop⟩
      · cases hmark
      · exact ⟨_, hy, hpop⟩
  · rcases mem_joined hp with hp | ⟨hp, hnew⟩
    · exact .inr (.inl (honly p hp))
    · rcases heffect hp with hmark | ⟨hpops, hpop⟩
      · exact .inl hmark
      · refine .inr (.inr ⟨hpops, fun c hc hsp => ?_, hpop⟩)
        obtain ⟨old, hlc, hmem⟩ := hgives c hc
        obtain ⟨hs, hl⟩ := hpop
        obtain ⟨n, s, hconst, -, -⟩ := ht.vars hl
        cases hconst
        cases (hsp ▸ hlc).symm.trans hl
        have hsame := hnew _ hmem
        rw [SomeTerm.const_same] at hsame
        cases hsame

namespace Walk

variable {side : Side} {w w₁ w₂ : World} {F : Fault → Prop} {H : Prop}

/-- Terms have been asked for: tables have grown, and what is new in them is granted. -/
structure Fetches (side : Side) (w w' : World) : Prop where
  before : (w.env side).Before (w'.env side)
  gives : (w.env side).Gives (w'.env side)
  nodes : w'.nodes = w.nodes

namespace Fetches

theorem refl (side : Side) (w : World) : Fetches side w w := ⟨.refl _, .refl _, rfl⟩

theorem trans (h₁ : Fetches side w w₁) (h₂ : Fetches side w₁ w₂) : Fetches side w w₂ :=
  ⟨h₁.before.trans h₂.before, h₁.gives.trans h₂.gives, h₂.nodes.trans h₁.nodes⟩

theorem canonical (h : Fetches side w w₁) (name : String) :
    (w₁.env side).canonical name = (w.env side).canonical name := by
  have hp := congrArg Env.renames h.before.policy
  exact congrArg (fun t : Table String String => (t.lookup name).getD name) hp

theorem arch (h : Fetches side w w₁) : (w₁.env side).arch = (w.env side).arch := by
  have hp := congrArg Env.arch h.before.policy
  exact hp

/-- A change of the environment that keeps policies and tables. -/
theorem on {act : EnvM α} (hs : Env.Steady (.any fun side => (w.env side).policy) side act)
    (hg : (w.env side).Gives (ending act (w.env side))) {a : α} {e : Env}
    (h : act (w.env side) = .ok a e) : Fetches side w (w.setEnv side e) := by
  have hon : Walk.on side act w = .ok a (w.setEnv side e) := by rw [Walk.on, h]
  have hk := (Steady.on hs).toKeeps.of_ok w.under_any hon
  rw [ending_of_ok h] at hg
  refine ⟨hk.before side, ?_, by rw [World.nodes_setEnv]⟩
  rw [World.env_setEnv]
  exact hg

end Fetches

/-- A node has been added. -/
structure AddsNode (side : Side) (w w' : World) : Prop where
  env : w'.env side = w.env side
  nodes : w'.nodes = w.nodes + 1

theorem AddsNode.of_nodes (side : Side) (w : World) : AddsNode side w { w with nodes := w.nodes + 1 } :=
  ⟨by cases side <;> rfl, rfl⟩

theorem Outcome.step {k : α → Walk β} {P : β → World → Prop} {act : Walk α} {a : α}
    (h : act w = .ok a w₁) (hk : Outcome P F (k a) w₁) : Outcome P F (act >>= k) w := by
  rw [Outcome, bind_of_ok h]
  exact hk

theorem Outcome.env_bind {k : Env → Walk α} {P : α → World → Prop}
    (h : Outcome P F (k (w.env side)) w) : Outcome P F (Walk.env side >>= k) w := h

/-- One action for each element, of which each may rely on what the ones before have come to. -/
theorem Outcome.each (side : Side) {I : World → Prop} {Q : β → α → World → Prop} {f : β → Walk α}
    {xs : List β} (hI : I w) (h : ∀ x ∈ xs, ∀ w, I w →
      Outcome (fun a w' => Q x a w' ∧ Fetches side w w' ∧ I w') F (f x) w)
    (hQ : ∀ {x a w w'}, Fetches side w w' → Q x a w → Q x a w') :
    Outcome (fun as w' => List.Forall₂ (fun x a => Q x a w') xs as ∧ Fetches side w w' ∧ I w') F
      (xs.mapM f) w := by
  induction xs generalizing w with
  | nil => exact .pure ⟨.nil, .refl side w, hI⟩
  | cons x xs ih =>
    rw [List.mapM_cons]
    refine (h x List.mem_cons_self w hI).bind fun a w₁ ⟨ha, hw₁, hI₁⟩ => ?_
    refine (ih hI₁ fun y hy => h y (List.mem_cons_of_mem x hy)).bind fun as w₂ ⟨has, hw₂, hI₂⟩ => ?_
    exact .pure ⟨.cons (hQ hw₂ ha) has, hw₁.trans hw₂, hI₂⟩

/-! ### Terms -/

theorem mkVar_succeeds {v : Var} (hv : v.sorted) (e : Env) : ∃ t e₁, Env.mkVar v e = .ok t e₁ := by
  obtain ⟨s, hs⟩ := Var.sorted_iff.mp hv
  cases hl : e.vars.lookup v with
  | some t => exact ⟨t, e, Env.mkVar_of_lookup hl⟩
  | none =>
    obtain ⟨full, names, hname⟩ := Env.constName_eq v.name e
    exact ⟨_, _, (Env.mkVar_of_none hl hname).trans (by rw [hs])⟩

theorem mkVar_fetches {v : Var} (hv : H → v.sorted) (w : World) : Outcome (fun t w' => Fetches side w w' ∧
    (w'.env side).vars.lookup v = some t ∧ (w'.env side).funcs = (w.env side).funcs) (fun _ => ¬ H)
      (on side (Env.mkVar v)) w := by
  refine .on (fun t e h => ⟨.on (.mkVar v) (.mkVar v _) h, ?_⟩) fun f e h hH => ?_
  · rw [World.env_setEnv]
    obtain ⟨hl, rfl⟩ | ⟨n, s, e₁, -, hn, -, rfl, rfl⟩ := Env.mkVar_ok h
    · exact ⟨hl, rfl⟩
    · obtain ⟨-, -, rfl⟩ | ⟨-, -, rfl⟩ := Env.constName_ok hn
      all_goals exact ⟨Table.lookup_put_self .., rfl⟩
  · obtain ⟨t, e₁, hok⟩ := mkVar_succeeds (hv hH) (w.env side)
    cases h.symm.trans hok

theorem getCalled_fetches (name : String) (w : World) : Outcome (fun p w' => Fetches side w w' ∧
    (w'.env side).called.lookup ((w'.env side).canonical name) = some p ∧
    (w'.env side).funcs = (w.env side).funcs) F (on side (Env.getCalled name)) w := by
  refine .on (fun p e h => ⟨.on (.getCalled name) (.getCalled name _) h, ?_⟩) fun f e h => ?_
  · rw [World.env_setEnv]
    obtain ⟨names, called, rfl, hl, -⟩ := Env.getCalled_ok h
    exact ⟨hl, rfl⟩
  · cases hl : (w.env side).called.lookup ((w.env side).canonical name) with
    | some p => cases h.symm.trans (Env.getCalled_of_lookup hl)
    | none =>
      obtain ⟨full, names, hok⟩ := Env.getCalled_of_none hl
      cases h.symm.trans hok

/-- A function has the signature that it has been declared with, or it gets one. -/
theorem declare_fetches (name : String) (dom : List TSort) (ran : TSort) (w : World) :
    Outcome (fun f w' => Fetches side w w' ∧ (w'.env side).funcs.lookup name = some f ∧
      ((w.env side).funcs.lookup name = some f ∨ f = ⟨name, dom, ran⟩) ∧
      ∀ n ≠ name, (w'.env side).funcs.lookup n = (w.env side).funcs.lookup n) F
      (on side (Env.declare name dom ran)) w := by
  refine .on (fun f e h => ⟨.on (.declare name dom ran) (.declare name dom ran _) h, ?_⟩) fun f e h => ?_
  · rw [World.env_setEnv]
    cases hl : (w.env side).funcs.lookup name with
    | some g =>
      cases h.symm.trans (Env.declare_of_lookup hl)
      exact ⟨hl, .inl rfl, fun _ _ => rfl⟩
    | none =>
      cases h.symm.trans (Env.declare_of_none hl)
      exact ⟨Table.lookup_put_self .., .inr rfl, fun n hn => Table.lookup_put_of_ne _ _ hn⟩
  · cases hl : (w.env side).funcs.lookup name with
    | some g => cases h.symm.trans (Env.declare_of_lookup hl)
    | none => cases h.symm.trans (Env.declare_of_none hl)

/-! ### Returns -/

theorem Fetches.pops {p : SomeTerm × SomeTerm} (h : Fetches side w w₁) (hp : (w.env side).Pops p) :
    (w₁.env side).Pops p := by
  obtain ⟨hs, hl⟩ := hp
  have hl₁ := h.before.vars _ _ hl
  rw [← h.arch] at hs hl₁ ⊢
  exact .sp hs hl₁

/-- A stack pointer that is a word is moved. -/
theorem poppedSp_fetches (hsp : H → ∃ n, (w.env side).arch.sp.type.sort = .ok (.bv n))
    (ht : (w.env side).Tidy) : Outcome (fun p w' => Fetches side w w' ∧ (w'.env side).Pops p)
      (fun _ => ¬ H) (poppedSp side) w := by
  have hsorted (hH : H) : (w.env side).arch.sp.sorted :=
    let ⟨_, hn⟩ := hsp hH
    Var.sorted_iff.mpr ⟨_, hn⟩
  refine .env_bind ((mkVar_fetches hsorted w).bind fun sp w₁ ⟨hw₁, hl, _⟩ => ?_)
  refine (Outcome.ofExcept (P := fun s w' => w' = w₁ ∧ (w.env side).arch.sp.type.sort = .ok s)
    (fun s hs => ⟨rfl, hs⟩) fun f hs hH => ?_).bind fun s w₂ ⟨hw₂, hs⟩ => ?_
  · obtain ⟨n, hn⟩ := hsp hH
    cases hs.symm.trans hn
  subst hw₂
  cases s with
  | bv n =>
    refine (Outcome.ofExcept (P := fun x w' => w' = w₂ ∧ sp = ⟨.bv n, x⟩)
      (fun x hx => ⟨rfl, SomeTerm.as_eq_ok hx⟩) fun f hx hH => ?_).bind fun x w₃ ⟨hw₃, hsp⟩ => .pure ?_
    · obtain ⟨k, s, rfl, hks, -⟩ := (hw₁.gives.tidy ht).vars hl
      cases hs.symm.trans hks
      rw [SomeTerm.as_self] at hx
      cases hx
    · subst hw₃ hsp
      refine ⟨hw₁, ?_⟩
      rw [← hw₁.arch] at hs hl ⊢
      exact .sp hs hl
  | bool | mem =>
    refine .throw fun hH => ?_
    obtain ⟨n, hn⟩ := hsp hH
    cases hs.symm.trans hn

/-- What a return changes. -/
theorem returnEffects_fetches (callee : Sub)
    (hsp : H → ∃ n, (w.env side).arch.sp.type.sort = .ok (.bv n)) (ht : (w.env side).Tidy) :
    Outcome (fun ps w' => Fetches side w w' ∧ (w'.env side).Replaces callee [] ps) (fun _ => ¬ H)
      (returnEffects side callee) w := by
  have hlast {popped : List (SomeTerm × SomeTerm)} {w₁ : World} (hw₁ : Fetches side w w₁)
      (hsome : (w₁.env side).arch.popsReturnAddr = true → ∃ p ∈ popped, (w₁.env side).Pops p)
      (honly : ∀ p ∈ popped, (w₁.env side).arch.popsReturnAddr = true ∧ (w₁.env side).Pops p) :
      Outcome (fun ps w' => Fetches side w w' ∧ (w'.env side).Replaces callee [] ps) (fun _ => ¬ H) (do
        let called ← Walk.on side (Env.getCalled callee.name)
        return popped ++ [(⟨_, called⟩, ⟨_, Term.truth true⟩)]) w₁ := by
    refine (getCalled_fetches callee.name w₁).bind fun flag w₂ ⟨hw₂, hl, _⟩ => .pure ⟨hw₁.trans hw₂, ?_⟩
    refine ⟨⟨_, List.mem_append_right _ List.mem_cons_self, .flag hl⟩, nofun, fun hpops _ => ?_,
      fun {p} hp => ?_⟩
    · obtain ⟨p, hp, hpop⟩ := hsome (hw₂.arch ▸ hpops)
      exact ⟨p, List.mem_append_left _ hp, hw₂.pops hpop⟩
    · rcases List.mem_append.mp hp with hp | hp
      · obtain ⟨hpops, hpop⟩ := honly p hp
        exact .inr (.inr ⟨hw₂.arch ▸ hpops, nofun, hw₂.pops hpop⟩)
      · rw [List.mem_singleton.mp hp]
        exact .inl (.flag hl)
  refine .env_bind ?_
  split
  · rename_i hpops
    refine (poppedSp_fetches hsp ht).bind fun p w₁ ⟨hw₁, hp⟩ => ?_
    exact hlast hw₁ (fun _ => ⟨p, List.mem_cons_self, hp⟩)
      (List.forall_mem_singleton.mpr ⟨hw₁.arch ▸ hpops, hp⟩)
  · rename_i hpops
    exact hlast (.refl side w) (fun h => absurd h hpops) nofun

/-! ### Summaries -/

theorem applyTo_succeeds {r : TSort} {dom : List TSort} (f : Spine dom r) {args : List SomeTerm}
    (h : List.Forall₂ (fun s t => t.1 = s) dom args) : ∃ t, Spine.applyTo f args = .ok t := by
  induction h with
  | nil => exact ⟨f, rfl⟩
  | @cons s x dom args hx _ ih =>
    obtain ⟨s', x⟩ := x
    obtain rfl : s' = s := hx
    obtain ⟨t, ht⟩ := ih (f.app x)
    refine ⟨t, ?_⟩
    rw [Spine.applyTo, SomeTerm.as_self]
    exact ht

theorem apply_succeeds {f : FuncDecl} {args : List SomeTerm}
    (h : List.Forall₂ (fun s t => t.1 = s) f.dom args) : ∃ t, f.apply args = .ok t := by
  obtain ⟨name, dom, ran⟩ := f
  cases h with
  | nil => exact ⟨_, rfl⟩
  | cons hx hxs =>
    obtain ⟨t, ht⟩ := applyTo_succeeds (.op (.func name _ ran)) (.cons hx hxs)
    refine ⟨⟨ran, t⟩, ?_⟩
    unfold FuncDecl.apply
    rw [ht]
    rfl

/-- The outputs of a summary with their new values, as they stand in its pairs. -/
theorem changed_values {vars : Table Var SomeTerm} {outs : List Var} {ps : List (SomeTerm × SomeTerm)}
    (h : List.Forall₂ (fun out p => vars.lookup out = some p.1) outs ps) :
    (∀ c ∈ outs.zip (ps.map (·.2)), ∃ old, vars.lookup c.1 = some old ∧ (old, c.2) ∈ ps) ∧
      ∀ p ∈ ps, ∃ c ∈ outs.zip (ps.map (·.2)), vars.lookup c.1 = some p.1 ∧ p.2 = c.2 := by
  induction h with
  | nil => exact ⟨nofun, nofun⟩
  | @cons out p outs ps hp _ ih =>
    obtain ⟨hgives, honly⟩ := ih
    rw [List.map_cons, List.zip_cons_cons]
    refine ⟨List.forall_mem_cons.mpr ⟨⟨p.1, hp, List.mem_cons_self⟩, fun c hc => ?_⟩,
      List.forall_mem_cons.mpr ⟨⟨_, List.mem_cons_self, hp, rfl⟩, fun q hq => ?_⟩⟩
    · obtain ⟨old, hl, hmem⟩ := hgives c hc
      exact ⟨old, hl, List.mem_cons_of_mem _ hmem⟩
    · obtain ⟨c, hc, hl⟩ := honly q hq
      exact ⟨c, List.mem_cons_of_mem _ hc, hl⟩

theorem arguments_fetches {inputs : List Var} (hin : H → ∀ v ∈ inputs, v.sorted) (w : World) :
    Outcome (fun args w' => List.Forall₂ (fun v t => (w'.env side).vars.lookup v = some t) inputs args ∧
        Fetches side w w' ∧ (w'.env side).funcs = (w.env side).funcs) (fun _ => ¬ H)
      (inputs.mapM fun v => Walk.on side (Env.mkVar v)) w := by
  refine .each side rfl (fun v hv w₁ hw₁ => ?_) fun hw hl => hw.before.vars _ _ hl
  refine (mkVar_fetches (fun hH => hin hH v hv) w₁).mono (fun t w₂ ⟨hw₂, hl, hfuncs⟩ => ?_) fun _ hf => hf
  exact ⟨hl, hw₂, hfuncs.trans hw₁⟩

theorem sorts_fetches (side : Side) {inputs : List Var} (hin : H → ∀ v ∈ inputs, v.sorted) (w : World) :
    Outcome (fun sorts w' => inputs.mapM (·.type.sort) = .ok sorts ∧
        List.Forall₂ (fun v s => v.type.sort = .ok s) inputs sorts ∧ w' = w) (fun _ => ¬ H)
      (inputs.mapM fun v => Walk.ofExcept v.type.sort) w := by
  refine (Outcome.each side (I := (· = w)) (Q := fun v s _ => v.type.sort = .ok s) rfl
    (fun v hv w₁ hw₁ => ?_) fun _ => id).mono
      (fun sorts w' ⟨hs, _, hw'⟩ => ⟨Tame.mapM_sorts hs, hs, hw'⟩) fun _ hf => hf
  refine .ofExcept (fun s hs => ⟨hs, .refl side w₁, hw₁⟩) fun f hs hH => ?_
  obtain ⟨s, hok⟩ := Var.sorted_iff.mp (hin hH v hv)
  cases hs.symm.trans hok

section

variable {e : Env} {rule : CallRule} {callee : Sub} {args : List SomeTerm}

/-- Functions that there are for the outputs of a summary have the signatures that it gives them. -/
def Signed (e : Env) (rule : CallRule) (callee : Sub) (e' : Env) : Prop :=
  ∀ out ∈ (e.interface rule callee).2, ∀ f,
    e'.funcs.lookup (e.canonical callee.name ++ "_" ++ out.name) = some f →
      e.Summarizes callee rule out f

/-- One result of a summary. -/
theorem result_fetches {sorts : List TSort} (ht : (w.env side).Tidy)
    (hsorts : (e.interface rule callee).1.mapM (·.type.sort) = .ok sorts)
    (hfit : List.Forall₂ (fun s t => t.1 = s) sorts args)
    (hsigned : e.Summarizable rule callee → Signed e rule callee (w.env side)) {out : Var}
    (hout : out ∈ (e.interface rule callee).2) :
    Outcome (fun p w' => ((w'.env side).vars.lookup out = some p.1 ∧ e.Results rule callee args out p.2) ∧
        Fetches side w w' ∧ (e.Summarizable rule callee → Signed e rule callee (w'.env side)))
      (fun _ => ¬ e.Summarizable rule callee) (do
        let ran ← out.type.sort
        let f ← Walk.on side (Env.declare (e.canonical callee.name ++ "_" ++ out.name) sorts ran)
        let old ← Walk.on side (Env.mkVar out)
        return (old, ← f.apply args)) w := by
  have hsort (hH : e.Summarizable rule callee) : out.sorted := hH.sorted (List.mem_append_right _ hout)
  refine (Outcome.ofExcept (P := fun ran w' => out.type.sort = .ok ran ∧ w' = w)
    (fun ran hran => ⟨hran, rfl⟩) fun f hf hH => ?_).bind fun ran w₀ ⟨hran, hw₀⟩ => ?_
  · obtain ⟨s, hok⟩ := Var.sorted_iff.mp (hsort hH)
    cases hf.symm.trans hok
  subst hw₀
  refine (declare_fetches _ sorts ran w₀).bind fun f w₁ ⟨hw₁, hf, hsig, hother⟩ => ?_
  have hname : f.name = e.canonical callee.name ++ "_" ++ out.name := (hw₁.gives.tidy ht).funcs hf
  have hsummarizes (hH : e.Summarizable rule callee) : e.Summarizes callee rule out f :=
    hsig.elim (hsigned hH out hout f) fun hf => ⟨hout, hname, by rw [hsorts, hf], by rw [hran, hf]⟩
  refine (mkVar_fetches hsort w₁).bind fun old w₂ ⟨hw₂, hold, hfuncs⟩ => ?_
  refine (Outcome.ofExcept (P := fun new w' => f.apply args = .ok new ∧ w' = w₂)
    (fun new hnew => ⟨hnew, rfl⟩) fun fault hfault hH => ?_).bind fun new w₃ ⟨hnew, hw₃⟩ => .pure ?_
  · have hdom : sorts = f.dom := Except.ok.inj (hsorts.symm.trans (hsummarizes hH).dom)
    obtain ⟨new, hok⟩ := apply_succeeds (hdom ▸ hfit)
    cases hfault.symm.trans hok
  subst hw₃
  refine ⟨⟨hold, f, hname, hsummarizes, hnew⟩, hw₁.trans hw₂, fun hH out' hout' g hg => ?_⟩
  rw [hfuncs] at hg
  by_cases hn : e.canonical callee.name ++ "_" ++ out'.name = e.canonical callee.name ++ "_" ++ out.name
  · obtain rfl := hH.outputs hout' hout ((String.append_right_inj _).mp hn)
    cases hf.symm.trans hg
    exact hsummarizes hH
  · rw [hother _ hn] at hg
    exact hsigned hH out' hout' g hg

/-- What a summary asks for. -/
theorem summaryPairs_fetches (rule : CallRule) (callee : Sub) (he : w.env side = e) (ht : e.Tidy) :
    Outcome (fun ps w' => Fetches side w w' ∧ e.Sums rule callee (w'.env side) ps)
      (fun _ => ¬ e.Summarizable rule callee)
      (summaryPairs side callee (e.interface rule callee).1 (e.interface rule callee).2) w := by
  have hin (hH : e.Summarizable rule callee) : ∀ v ∈ (e.interface rule callee).1, v.sorted :=
    fun v hv => hH.sorted (List.mem_append_left _ hv)
  refine (arguments_fetches hin w).bind fun args w₁ ⟨hargs, hw₁, hfuncs⟩ => ?_
  refine (sorts_fetches side hin w₁).bind fun sorts w₂ ⟨hsorts, heach, hw₂⟩ => ?_
  subst hw₂
  refine .env_bind ?_
  rw [hw₁.canonical, he]
  have ht₁ := hw₁.gives.tidy (he ▸ ht)
  have hfit : List.Forall₂ (fun s t => t.1 = s) sorts args := by
    refine Tame.arguments_fit heach (hargs.imp fun v t hl => ?_)
    obtain ⟨n, s, rfl, hs, -⟩ := ht₁.vars hl
    exact hs
  have hsigned (hH : e.Summarizable rule callee) : Signed e rule callee (w₂.env side) := by
    intro out hout f hf
    rw [hfuncs, he] at hf
    obtain ⟨ran, hran⟩ := Var.sorted_iff.mp (hH.sorted (List.mem_append_right _ hout))
    have hs : e.Summarizes callee rule out ⟨_, sorts, ran⟩ := ⟨hout, rfl, hsorts, hran⟩
    rw [hH.declared hs hf]
    exact hs
  refine (Outcome.each side (I := fun w' => (w'.env side).Tidy ∧
    (e.Summarizable rule callee → Signed e rule callee (w'.env side))) ⟨ht₁, hsigned⟩
    (fun out hout w' ⟨ht', hsigned'⟩ => (result_fetches ht' hsorts hfit hsigned' hout).mono
      (fun p w'' ⟨hp, hw'', hs⟩ => ⟨hp, hw'', hw''.gives.tidy ht', hs⟩) fun _ hf => hf)
    fun hw ⟨hl, hr⟩ => ⟨hw.before.vars _ _ hl, hr⟩).bind fun ps w₃ ⟨hps, hw₃, ht₃, _⟩ => ?_
  have hsp (hH : e.Summarizable rule callee) : ∃ n, (w₃.env side).arch.sp.type.sort = .ok (.bv n) := by
    rw [hw₃.arch, hw₁.arch, he]
    exact hH.sp
  refine (returnEffects_fetches callee hsp ht₃).bind fun qs w₄ ⟨hw₄, hqs⟩ => .pure ?_
  obtain ⟨hgives, honly⟩ := changed_values (hps.imp fun _ _ h => hw₄.before.vars _ _ h.1)
  refine ⟨(hw₁.trans hw₃).trans hw₄, args, ps.map (·.2), ?_, ?_, ?_⟩
  · exact hargs.imp fun _ _ hl => (hw₃.trans hw₄).before.vars _ _ hl
  · rw [List.forall₂_map_right_iff]
    exact hps.imp fun _ _ h => h.2
  · exact hqs.joined (hw₄.gives.tidy ht₃) hgives honly

theorem replaceAll_adds (side : Side) (c : Constr) {pairs : List (SomeTerm × SomeTerm)} (h : pairs ≠ [])
    (w : World) :
    Outcome (fun d w' => d = .subst w.nodes c pairs ∧ AddsNode side w w') F (replaceAll c pairs) w := by
  rw [replaceAll_eq, if_neg (mt List.isEmpty_iff.mp h)]
  exact ⟨rfl, .of_nodes side w⟩

/-- What a call does whose one output is the register that results are returned in. -/
abbrev summaryReturning (side : Side) (callee : Sub) (post : Constr) (ret : Option Var) : Walk Constr :=
  match ret with
  | none => MonadExcept.throw .noWidth
  | some ret => do summary side callee (← Walk.env side).inputRegs [ret] post

/-- The rules that summarize a call by its outputs. -/
def summarizing : List CallRule := [.argTerms, .raxOut, .chaosRax, .chaosCallerSaved, .default]

/-- The node that a summary adds. -/
def Summarized (side : Side) (e : Env) (rule : CallRule) (callee : Sub) (post : Constr) (w : World)
    (pre : Constr) (w' : World) : Prop :=
  ∃ w₁ pairs, Fetches side w w₁ ∧ e.Sums rule callee (w₁.env side) pairs ∧
    pre = .subst w.nodes post pairs ∧ AddsNode side w₁ w'

/-- The precondition of a call that is summarized by its outputs. -/
theorem summarize_fetches (he : w.env side = e) (ht : e.Tidy) (hr : rule ∈ summarizing) (post : Constr)
    (tid : String) :
    Outcome (Summarized side e rule callee post w) (fun _ => ¬ e.Summarizable rule callee)
      (summarize side rule callee post tid) w := by
  have hlast {act : Walk (List (SomeTerm × SomeTerm))}
      (hact : Outcome (fun ps w' => Fetches side w w' ∧ e.Sums rule callee (w'.env side) ps)
        (fun _ => ¬ e.Summarizable rule callee) act w) :
      Outcome (Summarized side e rule callee post w) (fun _ => ¬ e.Summarizable rule callee)
        (act >>= replaceAll post) w := by
    refine hact.bind fun ps w₁ hps => ?_
    obtain ⟨hw₁, hsums⟩ := hps
    obtain ⟨_, _, _, _, hreplaces⟩ := id hsums
    obtain ⟨p, hp, -⟩ := hreplaces.marks
    exact (replaceAll_adds side post (List.ne_nil_of_mem hp) w₁).mono
      (fun pre w' hpre => ⟨w₁, ps, hw₁, hsums, hw₁.nodes ▸ hpre.1, hpre.2⟩) fun _ hf => hf
  have hsummary {inputs outputs : List Var} (hio : e.interface rule callee = (inputs, outputs)) :
      Outcome (Summarized side e rule callee post w) (fun _ => ¬ e.Summarizable rule callee)
        (summary side callee inputs outputs post) w := by
    have hpairs := summaryPairs_fetches rule callee he ht
    rw [hio] at hpairs
    rw [summary_eq]
    exact hlast hpairs
  have hreturned (hio : e.interface rule callee = (e.inputRegs, e.arch.returnReg.toList)) :
      Outcome (Summarized side e rule callee post w) (fun _ => ¬ e.Summarizable rule callee)
        (summaryReturning side callee post e.arch.returnReg) w := by
    cases hret : e.arch.returnReg with
    | none => exact .throw fun hH => absurd hH.returns (by simp [hret])
    | some ret =>
      refine .env_bind (hsummary ?_)
      rw [he, hio, hret]
      rfl
  refine .env_bind ?_
  rw [he]
  simp only [summarizing, List.mem_cons, List.not_mem_nil, or_false] at hr
  rcases hr with rfl | rfl | rfl | rfl | rfl
  · exact hsummary rfl
  · exact hreturned rfl
  · exact hreturned rfl
  · refine .env_bind (hsummary ?_)
    rw [he]
    rfl
  · refine hlast ?_
    have hsp (hH : e.Summarizable .default callee) : ∃ n, (w.env side).arch.sp.type.sort = .ok (.bv n) :=
      he ▸ hH.sp
    refine (returnEffects_fetches callee hsp (he ▸ ht)).mono (fun ps w' hps => ?_) fun _ hf => hf
    exact ⟨hps.1, [], [], .nil, .nil, hps.2⟩

end

end Walk

end Precond

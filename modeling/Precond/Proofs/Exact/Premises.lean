import Precond.Proofs.Exact.Reflexive
import Precond.Solve.Search

/-! What the analysis of one program takes for granted at the entry: that variables have the values
recalled for it, and that the stack pointer lies in the stack. Some model satisfies this just if the
bounds of the stack are in order once they are cut to words (`Analysis.setup_satisfiable_iff`). -/

namespace Precond

open IR Walk

/-- All words are one number, and everything else is zero. -/
def Model.filled (x : Int) : Model where
  const _ s := match s with
    | .bv n => BitVec.ofInt n x
    | s => s.zero
  func _ dom ran := Fn.const dom ran.zero

theorem IR.Arch.sp_sort : ∀ a ∈ Arch.all, a.sp.type.sort = .ok (.bv a.addrSize) := by decide

/-- The bounds of the stack in force. -/
def Options.stackBounds (o : Options) : Int × Int := o.stackRange.getD Limits.stack

/-- The bounds of the stack are in order as words. -/
def Options.StackInOrder (o : Options) (width : Nat) : Prop :=
  BitVec.ofInt width o.stackBounds.1 ≤ BitVec.ofInt width o.stackBounds.2

instance (o : Options) (width : Nat) : Decidable (o.StackInOrder width) :=
  inferInstanceAs (Decidable (_ ≤ _))

theorem between_iff {n : Nat} {bounds : Int × Int} {x : BitVec n} :
    between bounds x = true ↔ BitVec.ofInt n bounds.1 ≤ x ∧ x ≤ BitVec.ofInt n bounds.2 := by
  simp only [between, Bool.and_eq_true, decide_eq_true_eq, BitVec.le_def]

namespace Walk

variable {a : Side → Arch} {side : Side} {w w' : World} {c : Constr} {v : Var} {vars : List Var}

/-- A goal that is true where all words are one number. -/
def Uniform (c : Constr) : Prop :=
  ∃ id name p, c = .goal id name p none ∧ ∀ x, p.holds (Model.filled x) = true

theorem entryGoal_uniform (hw : Sound a w) (h : entryGoal side v w = .ok c w') :
    Uniform c ∧ Sound a w' := by
  obtain ⟨t, w₁, ht, h₁⟩ := bind_ok h
  obtain ⟨i, w₂, hi, h₂⟩ := bind_ok h₁
  have hs₁ := hw.later ((Builds.on (.mkVar v) side).later ht)
  have hs₂ := hs₁.later ((Builds.on (.mkInitVar v) side).later hi)
  obtain ⟨-, -, hlook⟩ := mkVar_ok False (fun _ => False) ht
  obtain ⟨n, s, rfl, hsort, -⟩ := (hs₁.tidy side).vars hlook
  obtain ⟨n', s', rfl, hsort', -⟩ := (hs₂.tidy side).inits (mkInitVar_ok hi)
  cases hsort.symm.trans hsort'
  obtain ⟨p, rfl, rfl, hp⟩ := equate_ok h₂
  refine ⟨⟨_, _, p, rfl, fun x => (hp _).mpr (.refl _)⟩, hs₂.of_env fun side => ?_⟩
  cases side <;> rfl

theorem snapshot_uniform (hw : Sound a w) {gs : List Constr}
    (h : snapshot side vars w = .ok gs w') : (∀ c ∈ gs, Uniform c) ∧ Sound a w' := by
  rw [snapshot_eq] at h
  exact mapM_mem hw entryGoal_uniform h

/-- The goal about the stack pointer says of a constant that it lies in the stack. -/
theorem stackPointerGoal_ok {n : Nat} (hw : Sound a w) (hsp : (a side).sp.type.sort = .ok (.bv n))
    (h : stackPointerGoal side w = .ok c w') : Binds side [(w.env side).arch.sp] w w' ∧
      ∃ id name x, c = .goal id name (Env.inRange (w.env side).stack (.const x (.bv n))) none := by
  obtain ⟨e, w₁, he, h₁⟩ := bind_ok h
  obtain ⟨rfl, rfl⟩ := env_ok he
  obtain ⟨t, w₂, ht, h₂⟩ := bind_ok h₁
  obtain ⟨p, w₃, hp, h₃⟩ := bind_ok h₂
  obtain ⟨rfl, rfl⟩ := mkGoal_ok h₃
  have hs₂ := hw.later ((Builds.on (.mkVar _) side).later ht)
  obtain ⟨-, -, hlook⟩ := mkVar_ok False (fun _ => False) ht
  obtain ⟨x, s, rfl, hsort, -⟩ := (hs₂.tidy side).vars hlook
  rw [hw.arch] at hsort
  cases hsp.symm.trans hsort
  obtain ⟨e, he, rfl⟩ := on_ok hp
  have hsame : (w₂.env side).arch = (w₁.env side).arch := (hs₂.arch side).trans (hw.arch side).symm
  have hbinds := mkVar_binds ht
  have hstack : (w₂.env side).stack = (w₁.env side).stack := by
    obtain ⟨_, _, _, henv⟩ := hbinds.env
    rw [henv]
  rw [Env.spRange, EnvM.get_bind, hsame, EnvM.bind_of_ok (Env.mkVar_of_lookup hlook)] at he
  cases he
  refine ⟨?_, _, _, x, by rw [← hstack]; rfl⟩
  have hrest (s : Side) : World.env { w₂.setEnv side (w₂.env side) with
      nodes := (w₂.setEnv side (w₂.env side)).nodes + 1 } s = w₂.env s := by
    cases side <;> cases s <;> rfl
  exact ⟨by rw [hrest]; exact hbinds.env, by rw [hrest]; exact hbinds.bound,
    fun hs => (hrest _).trans (hbinds.other hs)⟩

end Walk

namespace Analysis

variable {p : Program} {o : Options} {s : Setup} {w : World}

/-- An environment that a program is analysed from. -/
theorem environment_ok {role : Role} {renames : Table String String} {e : Env}
    (h : environment p o role renames = .ok e) :
    e.arch = p.arch ∧ e.stack = o.stackBounds ∧ e.Tidy := by
  obtain ⟨tids, -, h₁⟩ := bind_eq_ok h
  obtain ⟨rs, -, h₂⟩ := bind_eq_ok h₁
  cases h₂
  exact ⟨rfl, rfl, ⟨nofun, nofun, nofun, nofun⟩⟩

theorem setup_single (h : setup o [p] = .ok (s, w)) : ∃ e,
    environment p o .single [] = .ok e ∧
      single o s.orig (World.start e (Env.start p.arch [])) = .ok s.pre w := by
  obtain ⟨_, -, h⟩ := bind_eq_ok h
  obtain ⟨f, hf, h⟩ := bind_eq_ok h
  obtain ⟨e, he, h⟩ := bind_eq_ok h
  unfold build at h
  split at h
  · rename_i pre w₁ hpre
    cases h
    exact ⟨e, he, hpre⟩
  · cases h

/-- An analysis without an assumption of its own. -/
theorem single_ok {f : Sub} {c : Constr} {w' : World} (hpre : o.precond = "") (hptr : o.pointerRegs = [])
    (h : single o f w = .ok c w') : ∃ inputs sp pre k w₁ w₂,
      snapshot .orig (varsOf (w.env .orig) f) w = .ok inputs w₁ ∧
      stackPointerGoal .orig w₁ = .ok sp w₂ ∧ c = .clause k (inputs ++ [sp]) [pre] := by
  unfold single at h
  rw [hpre, hptr] at h
  obtain ⟨e, w₁, he, h₁⟩ := bind_ok h
  obtain ⟨rfl, rfl⟩ := env_ok he
  obtain ⟨inputs, w₂, hinputs, h₂⟩ := bind_ok h₁
  obtain ⟨sp, w₃, hsp, h₃⟩ := bind_ok h₂
  obtain ⟨ptrs, w₄, hptrs, h₄⟩ := bind_ok h₃
  cases hptrs
  obtain ⟨given, w₅, hgiven, h₅⟩ := bind_ok h₄
  cases hgiven
  dsimp only at h₅
  split at h₅
  all_goals
    obtain ⟨post, w₄, -, h₆⟩ := bind_ok h₅
    obtain ⟨pre, w₅, -, h₇⟩ := bind_ok h₆
    obtain ⟨rfl, -⟩ := mkClause_ok h₇
    rw [List.append_nil, List.append_nil]
    exact ⟨inputs, sp, pre, _, _, _, hinputs, hsp, rfl⟩

/-- Some model satisfies what is taken for granted just if the bounds of the stack are in order. -/
theorem setup_satisfiable_iff (ha : p.arch ∈ Arch.all) (hpre : o.precond = "")
    (hptr : o.pointerRegs = []) (h : setup o [p] = .ok (s, w)) :
    ∃ id hyps pre, s.pre = .clause id hyps [pre] ∧
      ((∃ m, ∀ c ∈ hyps, ∃ F, c.toFormula = .ok F ∧ F.holds m = true) ↔
        o.StackInOrder p.arch.addrSize) := by
  obtain ⟨e, he, hsingle⟩ := setup_single h
  obtain ⟨inputs, sp, pre, k, w₁, w₂, hinputs, hsp, hclause⟩ := single_ok hpre hptr hsingle
  obtain ⟨harch, hstack, htidy⟩ := environment_ok he
  have hw : Sound (fun _ => p.arch) (World.start e (Env.start p.arch [])) := by
    constructor <;> rintro (_ | _)
    · exact harch
    · rfl
    · exact htidy
    · exact .start ..
  obtain ⟨huniform, hw₁⟩ := snapshot_uniform hw hinputs
  obtain ⟨-, i, name, x, rfl⟩ := stackPointerGoal_ok hw₁ (Arch.sp_sort _ ha) hsp
  have hstack₁ : (w₁.env .orig).stack = o.stackBounds := by
    obtain ⟨_, _, _, henv⟩ := (snapshot_ok hinputs).1.env
    rw [henv]
    exact hstack
  rw [hstack₁] at hclause
  refine ⟨k, _, pre, hclause, ⟨?_, ?_⟩⟩
  · rintro ⟨m, hm⟩
    obtain ⟨F, hF, htrue⟩ := hm _ (List.mem_append_right _ List.mem_cons_self)
    cases (Constr.toFormula_goal ..).symm.trans hF
    rw [Env.holds_inRange, between_iff] at htrue
    exact BitVec.le_trans htrue.1 htrue.2
  · intro horder
    refine ⟨.filled o.stackBounds.2, fun c hc => ?_⟩
    rcases List.mem_append.mp hc with hc | hc
    · obtain ⟨id, name, q, rfl, hq⟩ := huniform c hc
      exact ⟨q, Constr.toFormula_goal .., hq _⟩
    · cases List.mem_singleton.mp hc
      refine ⟨_, Constr.toFormula_goal .., ?_⟩
      rw [Env.holds_inRange, between_iff]
      exact ⟨horder, BitVec.le_refl _⟩

/-! ### A stack below its own size -/

/-- The lower bound of the stack is negative. -/
def lowStack : Options := { func := "divide", stackBase := some 5 }

theorem lowStack_disordered : ¬ lowStack.StackInOrder 32 := by decide

theorem setup_lowStack : ∃ s w, setup lowStack [dividing] = .ok (s, w) := by
  let start := World.start { Env.start Arch.arm [divide] with stack := (5 - 0xffff, 5) }
    (Env.start Arch.arm [])
  have hbuild : setup lowStack [dividing] =
      build (single lowStack divide) start (Setup.mk · divide none) := rfl
  have hw : Sound (fun _ => Arch.arm) start := by
    constructor <;> rintro (_ | _)
    · rfl
    · rfl
    · exact ⟨nofun, nofun, nofun, nofun⟩
    · exact .start ..
  have hsortable : ∀ v ∈ varsOf (start.env .orig) divide, Sortable (fun _ => False) v := by
    have hsorted : ∀ v ∈ varsOf (start.env .orig) divide, v.type.sort.toOption.isSome := by decide
    intro v hv f hf
    have hsome := hsorted v hv
    rw [hf] at hsome
    cases hsome
  have hsingle : Walk.Outcome (fun _ _ => True) (fun _ => False) (single lowStack divide) start := by
    refine .bind (P := fun e w' => w' = start ∧ e = start.env .orig) (.env ⟨rfl, rfl⟩) ?_
    rintro _ _ ⟨rfl, rfl⟩
    refine .bind (Walk.Outcome.snapshot hw hsortable).seen fun inputs w₁ ⟨hinputs, hw₁⟩ => ?_
    refine .bind (Walk.Outcome.stackPointerGoal hw₁ ⟨32, rfl⟩).seen fun sp w₂ ⟨hsp, hw₂⟩ => ?_
    have hbinds := (snapshot_ok hinputs).1.trans (stackPointerGoal_ok hw₁ rfl hsp).1
    obtain ⟨names, vars, inits, henv⟩ := hbinds.env
    refine .bind (P := fun _ w' => w₂ = w') rfl ?_
    rintro _ _ rfl
    refine .bind (P := fun _ w' => w₂ = w') rfl ?_
    rintro _ _ rfl
    refine .bind (P := fun _ w' => w'.env .orig = w₂.env .orig) rfl fun post w₃ hw₃ => ?_
    have hprepared : Prepared .orig w₂ := by
      refine ⟨by rw [henv]; rfl, by rw [henv]; exact nofun, fun v hv => ?_⟩
      obtain ⟨t, ht⟩ := Option.ne_none_iff_exists'.mp (hbinds.bound.mpr (.inl (List.mem_append_left _
        (List.mem_eraseDups.mpr (List.mem_append_left _ hv)))))
      obtain ⟨_, s, rfl, hs, -⟩ := (hw₂.tidy .orig).vars ht
      exact ⟨_, ht, hs⟩
    have hvisit : Succeeds (visitSub .orig post divide) w₃ fun _ _ => True :=
      divide_visited (by rw [hw₃, henv]; rfl)
        (hprepared.of_env (by rw [hw₃]) (by rw [hw₃]) (by rw [hw₃]))
    exact Walk.Outcome.of_succeeds (.bind (hvisit.mono fun _ _ _ => .now rfl True.intro))
  obtain ⟨c, w, hc, -⟩ := hsingle.succeeds fun _ => id
  rw [hbuild, build, hc]
  exact ⟨_, _, rfl⟩

theorem setup_satisfiable_iff_lowStack : ∃ s w id hyps pre, setup lowStack [dividing] = .ok (s, w) ∧
    s.pre = .clause id hyps [pre] ∧
      ¬ ∃ m, ∀ c ∈ hyps, ∃ F, c.toFormula = .ok F ∧ F.holds m = true := by
  obtain ⟨s, w, h⟩ := setup_lowStack
  obtain ⟨id, hyps, pre, hpre, hiff⟩ := setup_satisfiable_iff (by decide) rfl rfl h
  exact ⟨s, w, id, hyps, pre, h, hpre, fun hm => lowStack_disordered (hiff.mp hm)⟩

end Analysis

end Precond

import Precond.Analysis.Setup
import Precond.Proofs.Env.Makes
import Precond.Proofs.Walk.Respects

/-! The constants that an analysis makes. Each environment is asked for names of its vocabulary
(`Walk.Making`), by the walk of a subroutine and by what is known and asked around it. -/

namespace Precond.Walk

open IR

variable {V : Vocabulary} {e e₁ e₂ : Env}

/-- Rules that have been chosen and the place of the walk are the same. -/
theorem Vocabulary.Governs.kept (h : V.Governs e) (hk : e.Kept (fun _ _ => False) Eq e₁) :
    V.Governs e₁ := by
  have harch := congrArg Env.arch hk.policy
  have hsubs := congrArg Env.subs hk.policy
  have hrules := congrArg Env.rules hk.policy
  have hfallback := congrArg Env.fallback hk.policy
  have hrenames := congrArg Env.renames hk.policy
  exact h.of_eq harch hsubs hrules hfallback hrenames
    (fun _ _ hh => (hk.handlers_new hh).resolve_right id) fun _ hg => h.graph (hk.frame ▸ hg)

/-- Nothing is walked, and no rules are chosen. -/
def unwalked (policy : Side → Env) : Scope where
  policy := policy
  draws := True
  body _ _ := False
  rule _ _ _ := False
  sideRules := nofun
  elts := nofun
  chosen := nofun
  quiet := nofun
  expanded := nofun

/-- The first program has a vocabulary, and the second one may ask for all names. -/
def beside (V : Vocabulary) : Side → Vocabulary
  | .orig => V
  | .mod => .any

/-- An environment is asked for names of its vocabulary, and stays under it. -/
structure Making (V : Side → Vocabulary) (s : Side) (e e₁ : Env) : Prop where
  sideRules : e₁.sideRules = e.sideRules
  governs : (V s).Governs e → (V s).Governs e₁
  makes : Env.Makes.Some (V s) e e₁

namespace Making

variable {V : Side → Vocabulary} {s side : Side} {rules : List SideRule}

theorem refl (s : Side) (e : Env) : Making V s e e := ⟨rfl, id, .refl e⟩

theorem trans (h₁ : Making V s e e₁) (h₂ : Making V s e₁ e₂) : Making V s e e₂ :=
  ⟨h₂.sideRules.trans h₁.sideRules, h₂.governs ∘ h₁.governs, h₁.makes.trans h₂.makes⟩

theorem steady {act : EnvM α} (h : ∀ e : Env, Env.Steady (unwalked fun _ => e.policy) s act)
    (hm : ∀ e, Env.Makes.Some (V s) e (ending act e)) (e : Env) : Making V s e (ending act e) := by
  have hk : e.Kept (fun _ _ => False) Eq (ending act e) := (h e).kept rfl
  have hrules := congrArg Env.sideRules hk.policy
  exact ⟨hrules, fun hg => hg.kept hk, hm e⟩

theorem mkVar {v : Var} (hv : (V s).var v) : ∀ e, Making V s e (ending (Env.mkVar v) e) :=
  steady (fun _ => .mkVar v) (.mkVar hv)

theorem mkInitVar {v : Var} (hv : (V s).var v) (e : Env) :
    Making V s e (ending (Env.mkInitVar v) e) := by
  obtain ⟨names, inits, h⟩ : ∃ names inits, ending (Env.mkInitVar v) e = { e with names, inits } := by
    cases hl : e.inits.lookup v with
    | some t => exact ⟨_, _, by rw [ending, Env.mkInitVar_of_lookup hl]⟩
    | none =>
      obtain ⟨full, names, hname⟩ := Env.constName_eq (initFront ++ v.name) e
      rw [ending, Env.mkInitVar_of_none hl hname]
      cases v.type.sort <;> exact ⟨_, _, rfl⟩
  refine ⟨by rw [h], fun hg => ?_, .mkInitVar hv e⟩
  rw [h]
  exact hg.of_eq rfl rfl rfl rfl rfl (fun _ _ => id) fun _ => hg.graph

theorem getCalled (f : String) : ∀ e, Making V s e (ending (Env.getCalled f) e) :=
  steady (fun _ => .getCalled f) (.getCalled f)

/-- The changes of a walk, where a read beside another program finds a name of its vocabulary. -/
theorem changes_of {U : Side → Vocabulary}
    (h : ∀ width distance, .offsetRead width distance ∈ rules → ∀ v, (U .mod).var v) :
    Changes side rules (U side) (Making U) where
  refl := refl
  trans := trans
  sideRules := sideRules
  governs := governs
  mkVar := mkVar
  getCalled := getCalled
  declare hn dom := steady (fun _ => .declare _ dom _) (.declare hn dom)
  fresh hn type := steady (fun _ => .fresh True.intro _ type) (.fresh hn type)
  handler hc e := ⟨sideRules_ending (fun _ => .handler fun _ _ => True.intro) e,
    fun hg => hg.handled hc, .handler _ e⟩
  note kind tid detail := steady (fun _ => .note kind tid detail) fun e => .moved ..
  place hf e inlining attached := ⟨rfl, fun hg => hg.of_eq rfl rfl rfl rfl rfl (fun _ _ => id) hf, .moved ..⟩
  bound {u t e e₁} h := by
    refine ⟨?_, fun hg => ?_, h.makes.bound⟩
    · rw [Env.restoreVar_vars]
      exact h.sideRules
    · rw [Env.restoreVar_vars]
      have hg₁ := h.governs (hg.of_eq rfl rfl rfl rfl rfl (fun _ _ => id) fun _ => hg.graph)
      exact hg₁.of_eq rfl rfl rfl rfl rfl (fun _ _ => id) fun _ => hg₁.graph
  offset hr v := mkVar (h _ _ hr v)

instance changes (W : Vocabulary) : Changes side rules (beside W side) (Making (beside W)) :=
  changes_of fun _ _ _ _ => True.intro

/-- Without rules nothing is read beside another program. -/
instance changes_plain (W : Vocabulary) : Changes side [] W (Making fun _ => W) :=
  changes_of (U := fun _ => W) fun _ _ hr => nomatch hr

end Making

/-- An action asks the first environment for names of the vocabulary only. -/
abbrev Confined (rules : List SideRule) (V : Vocabulary) (x : Walk α) : Prop :=
  Respects .orig rules V (Making (beside V)) x

namespace Confined

variable {rules : List SideRule} {side : Side} {v : Var} {vars : List Var} {s : Sub}

instance : Changes .orig rules V (Making (beside V)) := Making.changes V

/-- An operation on an environment under its vocabulary. -/
theorem ask {act : EnvM α}
    (h : ∀ e, (beside V side).Governs e → Making (beside V) side e (ending act e)) :
    Confined rules V (on side act) := by
  refine ⟨fun {w} _ hg s => ?_⟩
  have hend : ending (on side act) w = w.setEnv side (ending act (w.env side)) := by
    rw [ending, ending, on]
    cases act (w.env side) <;> rfl
  have hR : Changes .orig rules V (Making (beside V)) := inferInstance
  rw [hend]
  refine Respects.setEnv hR (h _ ?_) s
  cases side with
  | orig => exact hg
  | mod => exact .any _

theorem mkVar (hv : (beside V side).var v) : Confined rules V (on side (Env.mkVar v)) :=
  ask fun e _ => .mkVar hv e

theorem mkInitVar (hv : (beside V side).var v) : Confined rules V (on side (Env.mkInitVar v)) :=
  ask fun e _ => .mkInitVar hv e

theorem getCalled (f : String) : Confined rules V (on side (Env.getCalled f)) :=
  ask fun e _ => .getCalled f e

/-- What is read of an environment. -/
theorem env {k : Env → Walk α} (h : ∀ e, (beside V side).Governs e → Confined rules V (k e)) :
    Confined rules V (Walk.env side >>= k) := by
  refine ⟨fun {w} hw hg => (h (w.env side) ?_).ends hw hg⟩
  cases side with
  | orig => exact hg
  | mod => exact .any _

theorem spRange : Confined rules V (on side Env.spRange) := by
  refine ask fun e hg => ?_
  have hend : ending Env.spRange e = ending (Env.mkVar e.arch.sp) e := by
    rw [ending, ending, Env.spRange, EnvM.get_bind]
    cases ht : Env.mkVar e.arch.sp e with
    | error f e₁ =>
      rw [show (_ >>= _ : EnvM (Term .bool)) e = EStateM.bind _ _ e from rfl, EStateM.bind, ht]
    | ok t e₁ =>
      rw [EnvM.bind_of_ok ht]
      cases hx : t.sized <;> rfl
  rw [hend]
  exact .mkVar (hg.arch _ (by simp [conventional])) e

theorem equate (name : String) (x y : SomeTerm) : Confined rules V (Walk.equate name x y) :=
  .bind (.lift _) fun _ => .mkGoal ..

theorem varsOf_covered {e : Env} (hg : (beside V side).Governs e) (hs : (beside V side).Covers s) :
    ∀ v ∈ varsOf e s, (beside V side).var v := by
  intro v hv
  rcases List.mem_append.mp (List.mem_eraseDups.mp hv) with hv | hv
  · exact hs.vars v hv
  · exact hg.arch v (by simp [conventional, hv])

theorem snapshot (hv : ∀ v ∈ vars, (beside V side).var v) :
    Confined rules V (Walk.snapshot side vars) :=
  .mapM fun v hm =>
    have hv' := hv v (List.mem_mergeSort.mp hm)
    .bind (mkVar hv') fun _ => .bind (mkInitVar hv') fun _ => equate ..

theorem stackPointerGoal : Confined rules V (Walk.stackPointerGoal side) :=
  env fun e hg => .bind (mkVar (hg.arch _ (by simp [conventional]))) fun _ =>
    .bind spRange fun _ => .mkGoal ..

theorem pointerGoal (hv : (beside V side).var v) : Confined rules V (Walk.pointerGoal side v) :=
  .bind (mkVar hv) fun _ => .bind (.lift _) fun _ => env fun _ _ => .mkGoal ..

theorem register_ok {name : String} {w w₁ : World} (h : register side name w = .ok v w₁) :
    w₁ = w ∧ v ∈ (w.env side).arch.registers := by
  obtain ⟨e, w₂, he, h₁⟩ := bind_ok h
  obtain ⟨rfl, rfl⟩ := env_ok he
  cases hv : (w₂.env side).arch.reg? name with
  | none =>
    simp only [hv] at h₁
    cases h₁
  | some v' =>
    simp only [hv] at h₁
    cases h₁
    exact ⟨rfl, List.mem_of_find?_eq_some hv⟩

/-- Registers by their names are covered. -/
theorem registers {names : List String} {k : List Var → Walk α}
    (hk : ∀ regs, (∀ v ∈ regs, (beside V side).var v) → Confined rules V (k regs)) :
    Confined rules V (names.mapM (register side) >>= k) := by
  have hregister (name : String) : Confined rules V (register side name) := env fun e _ => by
    cases hv : e.arch.reg? name with
    | none =>
      simp only [hv]
      exact .throw _
    | some v =>
      simp only [hv]
      exact .pure _
  refine .seq (.mapM fun name _ => hregister name) (fun {w regs w₁} hg h => ?_) hk
  have hg' : (beside V side).Governs (w.env side) := by
    cases side with
    | orig => exact hg
    | mod => exact .any _
  refine (mapM_mem (I := (· = w)) rfl (fun {name w₂ v w₃} hw hv => ?_) h).1
  obtain ⟨rfl, hv⟩ := register_ok hv
  exact ⟨hg'.arch _ (by rw [← hw]; simp [conventional, hv]), hw⟩

theorem pointers (names : List String) : Confined rules V (Walk.pointers names) :=
  registers fun _ hregs => .bind (.mapM fun v hv => pointerGoal (hregs v hv)) fun _ => .mkClause ..

theorem pointersBoth (names : List String) : Confined rules V (Walk.pointersBoth names) :=
  registers fun _ horig => registers fun _ hmod =>
    .bind (.mapM fun v hv => pointerGoal (horig v hv)) fun _ =>
    .bind (.mapM fun v hv => pointerGoal (hmod v hv)) fun _ => .mkClause ..

theorem formulaFor (text : String) : Confined rules V (Walk.formulaFor side text) :=
  env fun _ _ => .formula ..

theorem formulaForBoth (text : String) : Confined rules V (Walk.formulaForBoth text) :=
  env fun _ _ => env fun _ _ => .formula ..

theorem trivial : Confined rules V Walk.trivial := .mkGoal ..

theorem conjoin (cs : List Constr) : Confined rules V (Walk.conjoin cs) := by
  unfold Walk.conjoin
  split
  · exact .pure _
  · exact .mkClause ..

/-- The walk of a subroutine of either program. -/
theorem visitSub (hs : (beside V side).Covers s) (post : Constr) :
    Confined rules V (Walk.visitSub side post s) := by
  refine ⟨fun {w} _ hg => ?_⟩
  have hR : Changes side (w.env side).sideRules (beside V side) (Making (beside V)) := inferInstance
  refine (respects_visitSub post hs).ends rfl ?_
  cases side with
  | orig => exact hg
  | mod => exact .any _

theorem single {o : Options} (hs : V.Covers s) : Confined rules V (Analysis.single o s) := by
  have hs' : (beside V .orig).Covers s := hs
  have hwalk (hyps : List Constr) (post : Constr) : Confined rules V (do
      let pre ← Walk.visitSub .orig post s
      Walk.mkClause hyps [pre]) := .bind (visitSub hs' post) fun _ => .mkClause ..
  have hpost (hyps : List Constr) : Confined rules V (if o.postcond.isEmpty then do
        let post ← Walk.trivial
        let pre ← Walk.visitSub .orig post s
        Walk.mkClause hyps [pre]
      else do
        let post ← Walk.formulaFor .orig o.postcond
        let pre ← Walk.visitSub .orig post s
        Walk.mkClause hyps [pre]) :=
    .ite (.bind trivial fun post => hwalk hyps post) (.bind (formulaFor _) fun post => hwalk hyps post)
  refine env fun e hg => .bind (snapshot (varsOf_covered hg hs')) fun inputs => ?_
  refine .bind stackPointerGoal fun sp => ?_
  refine .ite (.bind (.pure _) fun ptrs => ?_) (.bind (pointers _) fun _ => .bind (.pure _) fun ptrs => ?_)
  all_goals
    exact .ite (.bind (.pure _) fun _ => hpost _) (.bind (formulaFor _) fun _ => .bind (.pure _) fun _ =>
      hpost _)

/-! ### Comparisons -/

variable {orig mod : Sub}

theorem equalVars (hv : ∀ v ∈ vars, V.var v) (label : String) :
    Confined rules V (PairRel.equalVars vars label) :=
  .bind (.mapM fun v hm =>
    have horig : (beside V .orig).var v := hv v (List.mem_mergeSort.mp hm)
    have hmod : (beside V .mod).var v := True.intro
    .bind (mkVar horig) fun _ => .bind (mkVar hmod) fun _ => equate ..) fun _ => .mkClause ..

/-- Shared variables are those of the first program. -/
theorem sharedVars {k : List Var → Walk α} (ho : V.Covers orig)
    (hk : ∀ vars, (∀ v ∈ vars, V.var v) → Confined rules V (k vars)) :
    Confined rules V (PairRel.sharedVars orig mod >>= k) := by
  have hread : Confined rules V (PairRel.sharedVars orig mod) := env fun _ _ => env fun _ _ => .pure _
  refine .seq hread (fun {w vars w₁} hg h => ?_) hk
  cases h
  have hg' : (beside V .orig).Governs (w.env .orig) := hg
  have ho' : (beside V .orig).Covers orig := ho
  exact fun v hv => varsOf_covered hg' ho' v (List.mem_of_mem_filter hv)

theorem equalInputs (ho : V.Covers orig) : Confined rules V (PairRel.equalInputs orig mod) :=
  sharedVars ho fun _ hv => equalVars hv _

theorem calleesOfBoth : Confined rules V (PairRel.calleesOfBoth orig mod) :=
  env fun _ _ => env fun _ _ => .pure _

theorem sameCalls : Confined rules V (PairRel.sameCalls orig mod) :=
  .bind calleesOfBoth fun _ => .bind (.mapM fun name _ => .bind (getCalled name) fun _ =>
    .bind (getCalled name) fun _ => .mkGoal ..) fun _ => .mkClause ..

theorem nothingCalled (name : String) : Confined rules V (PairRel.nothingCalled side name) :=
  .bind (getCalled name) fun _ => .mkGoal ..

/-- What a comparator asks at the entries and at the exits. -/
structure Compares (rules : List SideRule) (V : Vocabulary) (orig mod : Sub) (cmp : Comparator) :
    Prop where
  post : Confined rules V (cmp.post orig mod)
  hyp : Confined rules V (cmp.hyp orig mod)

namespace Compares

theorem stackPointers : Compares rules V orig mod .stackPointers where
  post := trivial
  hyp := .bind spRange fun _ => .bind (.mkGoal ..) fun _ => .bind spRange fun _ =>
    .bind (.mkGoal ..) fun _ => .mkClause ..

theorem memories : Compares rules V orig mod .memories where
  post := trivial
  hyp := env fun e hg => equalVars (fun v hv => by
    rw [List.mem_singleton.mp hv]
    exact hg.arch _ (by simp [conventional])) _

theorem registers {pre post : List Var} (hpre : ∀ v ∈ pre, V.var v) (hpost : ∀ v ∈ post, V.var v) :
    Compares rules V orig mod (.registers pre post) where
  post := equalVars hpost _
  hyp := equalVars hpre _

theorem formulas (post hyp : String) : Compares rules V orig mod (.formulas post hyp) where
  post := formulaForBoth _
  hyp := formulaForBoth _

theorem calls (ho : V.Covers orig) : Compares rules V orig mod .calls where
  post := sameCalls
  hyp := .bind calleesOfBoth fun _ => .bind (.mapM fun _ _ =>
    .bind (nothingCalled _) fun _ => .bind (nothingCalled _) fun _ => .pure _) fun _ =>
    .bind (equalInputs ho) fun _ => .mkClause ..

theorem pointers (names : List String) : Compares rules V orig mod (.pointers names) where
  post := trivial
  hyp := pointersBoth names

theorem emptyPost (ho : V.Covers orig) : Compares rules V orig mod .emptyPost where
  post := trivial
  hyp := equalInputs ho

end Compares

theorem outputs {o : Options} {k : List Var → Walk α} (hs : V.Covers s)
    (hk : ∀ vars, (∀ v ∈ vars, V.var v) → Confined rules V (k vars)) :
    Confined rules V (Analysis.outputs o s >>= k) := by
  have hread : Confined rules V (Analysis.outputs o s) := env fun _ _ => .ite (.pure _) (.throw _)
  refine .seq hread (fun {w vars w₁} hg h => ?_) hk
  obtain ⟨e, w₂, he, h₁⟩ := bind_ok h
  obtain ⟨rfl, rfl⟩ := env_ok he
  dsimp only at h₁
  split at h₁
  · cases h₁
    have hg' : (beside V .orig).Governs (World.env _ .orig) := hg
    have hs' : (beside V .orig).Covers s := hs
    exact fun v hv => varsOf_covered hg' hs' v (List.mem_of_mem_filter hv)
  · cases h₁

theorem comparators {o : Options} (ho : V.Covers orig) {k : List Comparator → Walk α}
    (hk : ∀ cmps, (∀ cmp ∈ cmps, Compares rules V orig mod cmp) → Confined rules V (k cmps)) :
    Confined rules V (Analysis.comparators o orig mod >>= k) := by
  have hif {c : Prop} [Decidable c] {xs ys : List Comparator}
      (hx : ∀ cmp ∈ xs, Compares rules V orig mod cmp) (hy : ∀ cmp ∈ ys, Compares rules V orig mod cmp) :
      ∀ cmp ∈ if c then xs else ys, Compares rules V orig mod cmp := by
    split
    · exact hx
    · exact hy
  have hone {cmp : Comparator} (h : Compares rules V orig mod cmp) :
      ∀ cmp' ∈ [cmp], Compares rules V orig mod cmp' := List.forall_mem_singleton.mpr h
  have happ {xs ys : List Comparator} (hx : ∀ cmp ∈ xs, Compares rules V orig mod cmp)
      (hy : ∀ cmp ∈ ys, Compares rules V orig mod cmp) :
      ∀ cmp ∈ xs ++ ys, Compares rules V orig mod cmp := List.forall_mem_append.mpr ⟨hx, hy⟩
  have hnil : ∀ cmp ∈ ([] : List Comparator), Compares rules V orig mod cmp := nofun
  have hrel {regs : List Comparator} (hregs : ∀ cmp ∈ regs, Compares rules V orig mod cmp) :=
    happ (happ (hif (c := o.compareFuncCalls) (hone (.calls ho)) hnil) hregs)
      (hif (c := o.postcond.isEmpty && o.precond.isEmpty) hnil
        (hone (.formulas (Analysis.orTrue o.postcond) (Analysis.orTrue o.precond))))
  have hall {rel : List Comparator} (hrel : ∀ cmp ∈ rel, Compares rules V orig mod cmp) :=
    happ (happ (happ (happ (hone .stackPointers) (hif (c := o.memOffset.isSome) hnil (hone .memories)))
      hrel) (hif (c := o.pointerRegs.isEmpty) hnil (hone (.pointers o.pointerRegs))))
      (hif (c := rel.isEmpty) (hone (.emptyPost ho)) hnil)
  unfold Analysis.comparators
  dsimp only
  split
  · simp only [pure_bind]
    exact hk _ (hall (hrel hnil))
  · simp only [bind_assoc, pure_bind]
    exact sharedVars ho fun shared hshared => outputs ho fun post hpost =>
      hk _ (hall (hrel (hone (.registers hshared hpost))))

theorem subs {cmps : List Comparator} (ho : V.Covers orig)
    (hc : ∀ cmp ∈ cmps, Compares rules V orig mod cmp) : Confined rules V (Compare.subs cmps orig mod) := by
  have ho' : (beside V .orig).Covers orig := ho
  have hm : (beside V .mod).Covers mod := .any mod
  have hrest (first second : List Constr) (post : Constr) : Confined rules V (do
      let hyps ← cmps.mapM fun c => c.hyp orig mod
      let hyp ← Walk.conjoin (hyps ++ first ++ second)
      let preMod ← Walk.visitSub .mod post mod
      let pre ← Walk.visitSub .orig preMod orig
      Walk.mkClause [hyp] [pre]) :=
    .bind (.mapM fun cmp hcmp => (hc cmp hcmp).hyp) fun _ => .bind (conjoin _) fun _ =>
      .bind (visitSub hm _) fun _ => .bind (visitSub ho' _) fun _ => .mkClause ..
  refine env fun e hg => .bind (snapshot (varsOf_covered hg ho')) fun first => ?_
  refine env fun e hg => .bind (snapshot (varsOf_covered hg hm)) fun second => ?_
  refine .bind (.mapM fun cmp hcmp => (hc cmp hcmp).post) fun posts => ?_
  cases posts with
  | nil => exact .bind trivial fun post => hrest _ _ post
  | cons c cs => exact .bind (conjoin _) fun post => hrest _ _ post

end Confined

end Precond.Walk

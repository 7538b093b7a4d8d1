import Precond.Proofs.Constraint.Renamed
import Precond.Proofs.Env.Renamed
import Precond.Proofs.Smt.Alike
import Precond.Proofs.Walk.Hooks
import Precond.Proofs.Walk.Steady

/-! Walks of a program and of the program with other names for variables. Actions of both end alike: both
fail, or what they give is related and so are their environments (`Guise.Both`). The terms of an expression
in both are the same, as far as the variables that it reads count (`Guise.Both.translateChecked`). What a
summary of a call replaces are registers and flags, by terms of registers and of new constants, and none of
these gets another name: both walks replace the same by the same (`Guise.Both.summarize`). -/

namespace Precond

open IR Precond.Flow Walk

namespace Guise

/-- Both actions fail, or their results are related, and the environments as before. -/
structure Both (G : Guise) (T : Var → SomeTerm → SomeTerm → Prop) (F : Frame → Frame → Prop)
    (A : α → β → Prop) (x : Walk α) (x' : Walk β) : Prop where
  run {w w' : World} : G.Renders T F (w.env G.side) (w'.env G.side) →
    Conform A (fun w w' => G.Renders T F (w.env G.side) (w'.env G.side)) (x w) (x' w')

/-- A condition with the same term. -/
structure Hooked (G : Guise) (X : Var → Prop) (h h' : Hook) : Prop where
  duty : h'.duty = h.duty
  placement : h'.placement = h.placement
  term : G.ρ.Same X ⟨_, h.term⟩ ⟨_, h'.term⟩

variable {G : Guise} {T : Var → SomeTerm → SomeTerm → Prop} {F : Frame → Frame → Prop} {X : Var → Prop}

namespace Both

variable {A : α → β → Prop} {C : γ → δ → Prop} {x : Walk α} {x' : Walk β} {k : α → Walk γ} {k' : β → Walk δ}

theorem pure {a : α} {b : β} (h : A a b) : G.Both T F A (Pure.pure a) (Pure.pure b) := ⟨fun hw => .ok h hw⟩

theorem throw (f f' : Fault) : G.Both T F A (MonadExcept.throw f) (MonadExcept.throw f') := ⟨fun _ => .error⟩

theorem bind (hx : G.Both T F A x x') (hk : ∀ a b, A a b → G.Both T F C (k a) (k' b)) :
    G.Both T F C (x >>= k) (x' >>= k') := by
  refine ⟨fun {w w'} hw => ?_⟩
  show Conform C _ (EStateM.bind x k w) (EStateM.bind x' k' w')
  have h := hx.run hw
  unfold EStateM.bind
  revert h
  generalize x w = r
  generalize x' w' = r'
  rintro (⟨ha, hw⟩ | _)
  · exact (hk _ _ ha).run hw
  · exact .error

/-- What gives the same, and then more. -/
theorem after {x' : Walk α} {k' : α → Walk δ} (hx : G.Both T F Eq x x')
    (hk : ∀ a, G.Both T F C (k a) (k' a)) : G.Both T F C (x >>= k) (x' >>= k') :=
  hx.bind fun a _ h => h ▸ hk a

theorem ite {p : Prop} [Decidable p] {y : Walk α} {y' : Walk β} (hx : p → G.Both T F A x x')
    (hy : ¬ p → G.Both T F A y y') : G.Both T F A (if p then x else y) (if p then x' else y') := by
  split
  · exact hx ‹_›
  · exact hy ‹_›

theorem mono {A' : α → β → Prop} (h : G.Both T F A x x') (hA : ∀ a b, A a b → A' a b) :
    G.Both T F A' x x' := by
  refine ⟨fun {w w'} hw => ?_⟩
  have h := h.run hw
  revert h
  generalize x w = r
  generalize x' w' = r'
  rintro (⟨ha, hw⟩ | _)
  · exact .ok (hA _ _ ha) hw
  · exact .error

theorem lift {y : Except Fault α} {y' : Except Fault β} (h : Tally A y y') :
    G.Both T F A (liftM y : Walk α) (liftM y' : Walk β) := by
  refine ⟨fun hw => ?_⟩
  cases h with
  | ok h => exact .ok h hw
  | error => exact .error

theorem ofExcept {y : Except Fault α} {y' : Except Fault β} (h : Tally A y y') :
    G.Both T F A (Walk.ofExcept y) (Walk.ofExcept y') := lift h

theorem present {o : Option α} {o' : Option β} (h : Option.Rel A o o') :
    G.Both T F A (Walk.present o) (Walk.present o') := by
  cases h with
  | some h => exact pure h
  | none => exact throw _ _

theorem mapM {f : γ → Walk α} {f' : δ → Walk β} {xs : List γ} {xs' : List δ}
    (h : List.Forall₂ (fun y y' => G.Both T F A (f y) (f' y')) xs xs') :
    G.Both T F (List.Forall₂ A) (xs.mapM f) (xs'.mapM f') := by
  induction h with
  | nil => exact pure .nil
  | cons h _ ih =>
    rw [List.mapM_cons, List.mapM_cons]
    exact h.bind fun _ _ ha => ih.bind fun _ _ has => pure (.cons ha has)

/-- What is read of the environments. -/
theorem env {k : Env → Walk α} {k' : Env → Walk β}
    (h : ∀ e e', G.Renders T F e e' → G.Both T F A (k e) (k' e')) :
    G.Both T F A (Walk.env G.side >>= k) (Walk.env G.side >>= k') := ⟨fun hw => (h _ _ hw).run hw⟩

theorem on {act : EnvM α} {act' : EnvM β}
    (h : ∀ {e e'}, G.Renders T F e e' → Conform A (G.Renders T F) (act e) (act' e')) :
    G.Both T F A (Walk.on G.side act) (Walk.on G.side act') := by
  refine ⟨fun {w w'} hw => ?_⟩
  have h := h hw
  unfold Walk.on
  revert h
  generalize act (w.env G.side) = r
  generalize act' (w'.env G.side) = r'
  rintro (⟨ha, he⟩ | _)
  · refine .ok ha ?_
    rwa [World.env_setEnv, World.env_setEnv]
  · exact .error

/-- Actions that only make constraints. -/
theorem node {f f' : Nat → Constr} {A : Constr → Constr → Prop} (h : ∀ i j, A (f i) (f' j)) :
    G.Both T F A (do return f (← newNode)) (do return f' (← newNode)) := by
  refine ⟨fun {w w'} hw => .ok (h w.nodes w'.nodes) ?_⟩
  cases hs : G.side <;> rw [hs] at hw <;> exact hw

theorem note (kind kind' : WeakeningKind) (tid tid' detail detail' : String) :
    G.Both T F (fun _ _ => True) (Walk.on G.side (Env.note kind tid detail))
      (Walk.on G.side (Env.note kind' tid' detail')) := on fun h => h.note ..

/-- A variable stands for a term while something is done. -/
theorem binding {T' : Var → SomeTerm → SomeTerm → Prop} {v : Var} {t t' : SomeTerm} (ht : T' v t t')
    (hT : ∀ u, u ≠ v → T' u = T u) (h : G.Both T' F A x x') :
    G.Both T F A (Walk.binding G.side v t x) (Walk.binding G.side (G.ρ v) t' x') := by
  refine ⟨fun {w w'} hw => ?_⟩
  rw [binding_eq, binding_eq]
  have hput : G.Renders T' F ((put w G.side v t).env G.side) ((put w' G.side (G.ρ v) t').env G.side) := by
    rw [put, put, World.env_setEnv, World.env_setEnv]
    exact hw.put ht hT
  have hrun := h.run hput
  unfold restoring
  revert hrun
  generalize x (put w G.side v t) = r
  generalize x' (put w' G.side (G.ρ v) t') = r'
  rintro (⟨ha, he⟩ | _)
  · refine .ok ha ?_
    rw [World.env_setEnv, World.env_setEnv]
    exact he.restoreVar (hw.vars v) hT
  · exact .error

end Both

/-! ### Translation -/

variable (G) in
/-- What the variables of an expression stand for is the same, and what those stand for that keep their
names. -/
def Shows (T : Var → SomeTerm → SomeTerm → Prop) (X : Var → Prop) (e : Exp) : Prop :=
  ∀ v, v ∈ e.freeVars ∨ ¬ G.ρ.Moves v → ∀ t t', T v t t' → G.ρ.Same X t t'

variable (G) in
/-- The same term, with the same conditions. -/
structure Read (X : Var → Prop) (p p' : SomeTerm × List Hook) : Prop where
  term : G.ρ.Same X p.1 p'.1
  hooks : List.Forall₂ (G.Hooked X) p.2 p'.2

theorem Shows.part {e e' : Exp} (h : G.Shows T X e) (he : ∀ v ∈ e'.freeVars, v ∈ e.freeVars) :
    G.Shows T X e' := fun v hv => h v (hv.imp_left (he v))

/-- The body of a local binding. -/
theorem Shows.body {v : Var} {value body : Exp} (h : G.Shows T X (.letIn v value body)) :
    G.Shows (Function.update T v (G.ρ.Same X)) X body := by
  intro u hu t t' ht
  by_cases huv : u = v
  · subst huv
    rwa [Function.update_self] at ht
  · rw [Function.update_of_ne huv] at ht
    refine h u (hu.imp_left fun hu => ?_) t t' ht
    rw [Exp.freeVars]
    exact List.mem_append_right _ (List.mem_filter.mpr ⟨hu, decide_eq_true huv⟩)

/-- At blocks the variables stand for their own constants. -/
theorem Shows.own {e : Exp} (h : ∀ v ∈ e.freeVars, G.ρ.Moves v → X v) : G.Shows G.Own X e :=
  fun v hv _ _ ht => ht.same fun hm => hv.elim (fun hv => h v hv hm) (absurd hm)

/-- The address of a read or write. -/
theorem Shows.accessed (access : Access) {e : Exp} (he : G.Shows T X e) :
    Option.Rel (fun p p' => p' = (G.ρ.exp p.1, p.2) ∧ G.Shows T X p.1) (accessed? access e)
      (accessed? access (G.ρ.exp e)) := by
  unfold accessed?
  cases e with
  | load m a e n =>
    dsimp only [Renaming.exp]
    split
    · exact .some ⟨rfl, he.part fun _ => List.mem_append_right _⟩
    · exact .none
  | store m a x e n =>
    dsimp only [Renaming.exp]
    split
    · exact .some ⟨rfl, he.part fun _ h => List.mem_append_left _ (List.mem_append_right _ h)⟩
    · exact .none
  | _ => exact .none

namespace Both

variable (hG : G.Fair)

include hG

theorem translateWith {watch watch' : Exp → Walk (List Hook)}
    (hw : ∀ {T : Var → SomeTerm → SomeTerm → Prop} (e : Exp), G.Shows T X e →
      G.Both T F (List.Forall₂ (G.Hooked X)) (watch e) (watch' (G.ρ.exp e))) (e : Exp) (he : G.Shows T X e) :
    G.Both T F (G.Read X) (Walk.translateWith G.side watch e)
      (Walk.translateWith G.side watch' (G.ρ.exp e)) := by
  induction e generalizing T with
  | var v =>
    refine (hw _ he).bind fun _ _ hh => (on fun h => h.getVar v).bind fun t t' ht => pure ⟨?_, hh⟩
    exact he v (.inl (List.mem_singleton_self v)) t t' ht
  | lit x =>
    refine (hw _ he).bind fun _ _ hh => ite (fun _ => throw _ _) fun _ => pure ⟨?_, hh⟩
    exact ⟨rfl, fun _ _ _ => rfl⟩
  | bin op l r ihl ihr =>
    refine (hw _ he).bind fun _ _ hh => (ihl (he.part fun _ => List.mem_append_left _)).bind fun _ _ hl =>
      (ihr (he.part fun _ => List.mem_append_right _)).bind fun _ _ hr => ?_
    exact (lift (hl.term.binary op hr.term)).bind fun _ _ ht =>
      pure ⟨ht, List.rel_append (List.rel_append hh hl.hooks) hr.hooks⟩
  | un op a ih =>
    refine (hw _ he).bind fun _ _ hh => (ih (he.part fun _ h => h)).bind fun _ _ ha => ?_
    exact (lift (ha.term.unary op)).bind fun _ _ ht => pure ⟨ht, List.rel_append hh ha.hooks⟩
  | cast kind width a ih =>
    refine (hw _ he).bind fun _ _ hh => (ih (he.part fun _ h => h)).bind fun _ _ ha => ?_
    exact (lift (ha.term.castTo kind width)).bind fun _ _ ht => pure ⟨ht, List.rel_append hh ha.hooks⟩
  | load mem addr endian size ihm iha =>
    refine (hw _ he).bind fun _ _ hh => (ihm (he.part fun _ => List.mem_append_left _)).bind fun _ _ hm =>
      (iha (he.part fun _ => List.mem_append_right _)).bind fun _ _ ha => ?_
    exact (lift (hm.term.load size endian ha.term)).bind fun _ _ ht =>
      pure ⟨ht, List.rel_append (List.rel_append hh hm.hooks) ha.hooks⟩
  | store mem addr value endian size ihm iha ihv =>
    refine (hw _ he).bind fun _ _ hh =>
      (ihm (he.part fun _ h => List.mem_append_left _ (List.mem_append_left _ h))).bind fun _ _ hm =>
      (iha (he.part fun _ h => List.mem_append_left _ (List.mem_append_right _ h))).bind fun _ _ ha =>
      (ihv (he.part fun _ => List.mem_append_right _)).bind fun _ _ hv => ?_
    exact (lift (hm.term.storeWord size endian ha.term hv.term)).bind fun _ _ ht =>
      pure ⟨ht, List.rel_append (List.rel_append (List.rel_append hh hm.hooks) ha.hooks) hv.hooks⟩
  | ite cond yes no ihc ihy ihn =>
    refine (hw _ he).bind fun _ _ hh =>
      (ihc (he.part fun _ h => List.mem_append_left _ (List.mem_append_left _ h))).bind fun _ _ hc =>
      (ihy (he.part fun _ h => List.mem_append_left _ (List.mem_append_right _ h))).bind fun _ _ hy =>
      (ihn (he.part fun _ => List.mem_append_right _)).bind fun _ _ hn => ?_
    exact (lift (hc.term.choose hy.term hn.term)).bind fun _ _ ht =>
      pure ⟨ht, List.rel_append (List.rel_append (List.rel_append hh hc.hooks) hy.hooks) hn.hooks⟩
  | extract hi lo a ih =>
    refine (hw _ he).bind fun _ _ hh => (ih (he.part fun _ h => h)).bind fun _ _ ha => ?_
    exact (lift (ha.term.extractBits hi lo)).bind fun _ _ ht => pure ⟨ht, List.rel_append hh ha.hooks⟩
  | concat l r ihl ihr =>
    refine (hw _ he).bind fun _ _ hh => (ihl (he.part fun _ => List.mem_append_left _)).bind fun _ _ hl => ?_
    refine (ofExcept (Term.word_level hl.term.level _)).bind fun _ _ _ =>
      (ihr (he.part fun _ => List.mem_append_right _)).bind fun _ _ hr => ?_
    exact (lift (hl.term.concatWords hr.term)).bind fun _ _ ht =>
      pure ⟨ht, List.rel_append (List.rel_append hh hl.hooks) hr.hooks⟩
  | letIn v value body ihv ihb =>
    refine (hw _ he).bind fun _ _ hh => (ihv (he.part fun _ => List.mem_append_left _)).bind fun x x' hx => ?_
    have hput : Function.update T v (G.ρ.Same X) v x.1 x'.1 := by
      rw [Function.update_self]
      exact hx.term
    refine (binding hput (fun u hu => Function.update_of_ne hu ..) (ihb he.body)).bind fun _ _ hy => ?_
    exact pure ⟨hy.term, List.rel_append (List.rel_append hh hx.hooks) hy.hooks⟩
  | unknown text type =>
    refine (hw _ he).bind fun _ _ hh => (on fun h => h.fresh hG.unknown type).bind ?_
    rintro t _ ⟨rfl, ht⟩
    exact pure ⟨ht X, hh⟩

theorem translate {e : Exp} (he : G.Shows T X e) :
    G.Both T F (G.ρ.Same X) (Walk.translate G.side e) (Walk.translate G.side (G.ρ.exp e)) :=
  (translateWith hG (fun _ _ => pure .nil) e he).bind fun _ _ h => pure h.term

theorem condition {e : Exp} (he : G.Shows T X e) :
    G.Both T F (fun p p' => G.ρ.Same X ⟨_, p⟩ ⟨_, p'⟩) (Walk.condition G.side e)
      (Walk.condition G.side (G.ρ.exp e)) := (translate hG he).bind fun _ _ h => lift h.condition

omit hG in
/-- Both ends of an access lie in the same regions. -/
theorem validEnds_same {e e' : Env} (h : G.Renders T F e e') {w : Nat} {a a' : Term (.bv w)}
    (ha : G.ρ.Same X ⟨_, a⟩ ⟨_, a'⟩) (size : Int) :
    G.ρ.Same X ⟨_, validEnds e a size⟩ ⟨_, validEnds e' a' size⟩ := by
  obtain ⟨hstack, hstack'⟩ := h.setting Env.stack fun _ _ => rfl
  obtain ⟨hheap, hheap'⟩ := h.setting Env.heap fun _ _ => rfl
  refine .of_holds fun m m' hm => ?_
  rw [Regions.holds_validEnds, Regions.holds_validEnds, ha.word hm, hstack, hheap, hstack', hheap']

theorem sideCondition {e : Exp} (he : G.Shows T X e) {rule : SideRule} (hr : G.ρ.Keeps rule) :
    G.Both T F (Option.Rel (G.Hooked X)) (Walk.sideCondition G.side e rule)
      (Walk.sideCondition G.side (G.ρ.exp e) rule) := by
  cases rule with
  | nonNull access duty =>
    have haccess := he.accessed access
    dsimp only [Walk.sideCondition]
    revert haccess
    generalize accessed? access e = o
    generalize accessed? access (G.ρ.exp e) = o'
    rintro (@⟨p, _, rfl, ha⟩ | _)
    · refine (translate hG ha).bind fun _ _ h => (lift h.sized).bind ?_
      rintro ⟨w, a⟩ ⟨_, a'⟩ ⟨⟨⟩, hsame⟩
      refine pure (.some ⟨rfl, rfl, .of_holds fun m m' hm => ?_⟩)
      rw [Spine.holds_nonZero, Spine.holds_nonZero, hsame.word hm]
    · exact pure .none
  | validAccess access duty =>
    have haccess := he.accessed access
    dsimp only [Walk.sideCondition]
    revert haccess
    generalize accessed? access e = o
    generalize accessed? access (G.ρ.exp e) = o'
    rintro (@⟨p, _, rfl, ha⟩ | _)
    · refine (translate hG ha).bind fun _ _ h => (lift h.sized).bind ?_
      rintro ⟨w, a⟩ ⟨_, a'⟩ ⟨⟨⟩, hsame⟩
      exact env fun e e' h => pure (.some ⟨rfl, rfl, validEnds_same h hsame p.2⟩)
    · exact pure .none
  | nonZeroDivisor =>
    cases e with
    | bin op l r =>
      dsimp only [Walk.sideCondition, Renaming.exp]
      refine ite (fun _ => ?_) fun _ => pure .none
      refine (translate hG (he.part fun _ => List.mem_append_right _)).bind fun _ _ h => (lift h.sized).bind ?_
      rintro ⟨w, d⟩ ⟨_, d'⟩ ⟨⟨⟩, hsame⟩
      refine pure (.some ⟨rfl, rfl, .of_holds fun m m' hm => ?_⟩)
      rw [Spine.holds_nonZero, Spine.holds_nonZero, hsame.word hm]
    | _ => exact pure .none
  | offsetRead => exact hr.elim
  | custom on duty placement cond name =>
    dsimp only [Walk.sideCondition]
    rw [Renaming.kind_exp]
    refine ite (fun _ => ?_) fun _ => pure .none
    have hcond : G.Shows T X cond := fun v hv t t' ht =>
      he v (.inr (hv.elim (fun hv => Renaming.not_moves_of_exp hr hv) id)) t t' ht
    have hboth := condition (F := F) hG hcond
    rw [show G.ρ.exp cond = cond from hr] at hboth
    exact hboth.bind fun _ _ h => pure (.some ⟨rfl, rfl, h⟩)

theorem sideConditions {e : Exp} (he : G.Shows T X e) {rules : List SideRule} (hr : ∀ r ∈ rules, G.ρ.Keeps r) :
    G.Both T F (List.Forall₂ (G.Hooked X)) (Walk.sideConditions G.side rules e)
      (Walk.sideConditions G.side rules (G.ρ.exp e)) := by
  induction rules with
  | nil => exact pure .nil
  | cons r rules ih =>
    refine (sideCondition hG he (hr r List.mem_cons_self)).bind fun h h' hh =>
      (ih fun r hmem => hr r (List.mem_cons_of_mem _ hmem)).bind fun _ _ hhs => pure (List.rel_append ?_ hhs)
    cases hh with
    | some h => exact .cons h .nil
    | none => exact .nil

/-- The terms of an expression and of the expression with other names are the same, as far as the variables
that it reads count. -/
theorem translateChecked {e : Exp} (he : ∀ v ∈ e.freeVars, G.ρ.Moves v → X v) :
    G.Both G.Own F (G.Read X) (Walk.translateChecked G.side e) (Walk.translateChecked G.side (G.ρ.exp e)) := by
  have hcount : G.Both G.Own F (fun _ _ => True)
      (modify fun w : World => { w with translations := w.translations + 1 })
      (modify fun w : World => { w with translations := w.translations + 1 }) := by
    refine ⟨fun {w w'} hw => .ok True.intro ?_⟩
    cases hs : G.side <;> rw [hs] at hw <;> exact hw
  refine hcount.bind fun _ _ _ => env fun e e' h => ?_
  obtain ⟨hrules, hrules'⟩ := h.setting Env.sideRules fun _ _ => rfl
  rw [hrules, hrules']
  exact translateWith hG (fun _ he => sideConditions hG he fun _ hr => hG.sideRules hr) _ (.own he)

end Both

/-- The conditions of a duty and a placement. -/
theorem Hooked.select {hs hs' : List Hook} (h : List.Forall₂ (G.Hooked X) hs hs') (duty : Duty)
    (placement : Placement) :
    List.Forall₂ (G.Hooked X) (Walk.select hs duty placement) (Walk.select hs' duty placement) := by
  refine List.rel_filter ?_ h
  intro k k' hk
  dsimp only
  rw [hk.duty, hk.placement]

/-! ### New constraints -/

variable {Y : Var → Prop} {c c' : Constr} {hyps hyps' goals goals' : List Constr}
  {pairs pairs' : List (SomeTerm × SomeTerm)}

namespace Both

theorem mkGoal {p p' : Term .bool} (hp : G.ρ.Same X ⟨_, p⟩ ⟨_, p'⟩) (name name' : String)
    (tid tid' : Option String) :
    G.Both T F (G.ρ.Alike X) (Walk.mkGoal name p tid) (Walk.mkGoal name' p' tid') :=
  node fun _ _ => .goal hp ..

theorem mkClause (hh : List.Forall₂ (G.ρ.Alike X) hyps hyps') (hg : List.Forall₂ (G.ρ.Alike X) goals goals') :
    G.Both T F (G.ρ.Alike X) (Walk.mkClause hyps goals) (Walk.mkClause hyps' goals') :=
  node fun _ _ => .clause hh hg

theorem mkBranch {p p' : Term .bool} (hp : G.ρ.Same X ⟨_, p⟩ ⟨_, p'⟩) (jump : String)
    (hy : G.ρ.Alike X yes yes') (hn : G.ρ.Alike X no no') :
    G.Both T F (G.ρ.Alike X) (Walk.mkBranch jump p yes no) (Walk.mkBranch jump p' yes' no') :=
  node fun _ _ => .branch hp jump jump hy hn

theorem trivial : G.Both T F (G.ρ.Alike X) Walk.trivial Walk.trivial := mkGoal ⟨rfl, fun _ _ _ => rfl⟩ ..

theorem guard {as as' vs vs' : List Hook} (ha : List.Forall₂ (G.Hooked X) as as')
    (hv : List.Forall₂ (G.Hooked X) vs vs') (hc : G.ρ.Alike X c c') :
    G.Both T F (G.ρ.Alike X) (Walk.guard as vs c) (Walk.guard as' vs' c') := by
  have hempty {hs hs' : List Hook} (h : List.Forall₂ (G.Hooked X) hs hs') : hs'.isEmpty = hs.isEmpty := by
    cases h <;> rfl
  have hgoals {hs hs' : List Hook} (h : List.Forall₂ (G.Hooked X) hs hs') :
      G.Both T F (List.Forall₂ (G.ρ.Alike X)) (hs.mapM fun h => Walk.mkGoal h.name h.term none)
        (hs'.mapM fun h => Walk.mkGoal h.name h.term none) :=
    mapM (h.imp fun _ _ hk => mkGoal hk.term ..)
  unfold Walk.guard
  rw [hempty ha, hempty hv]
  refine ite (fun _ => pure hc) fun _ => ?_
  exact (hgoals ha).bind fun _ _ hh => (hgoals hv).bind fun _ _ hg =>
    mkClause hh (List.rel_append hg (.cons hc .nil))

/-- What is replaced need not be seen before. -/
theorem replaceAll (hp : List.Forall₂ (G.ρ.Trades X) pairs pairs')
    (hX : ∀ n s, G.ρ.Counts Y n s → G.ρ.Counts X n s ∨ ∃ p ∈ pairs, p.1 = ⟨s, .const n s⟩)
    (hc : G.ρ.Alike Y c c') :
    G.Both T F (G.ρ.Alike X) (Walk.replaceAll c pairs) (Walk.replaceAll c' pairs') := by
  rw [replaceAll_eq, replaceAll_eq]
  cases hp with
  | nil =>
    refine pure (Tally.mono hc fun F F' _ _ hF => ⟨hF.level, fun m m' hm => hF.value m m' ⟨?_, hm.func⟩⟩)
    exact fun {n s} hn => hm.const ((hX n s hn).resolve_right nofun)
  | cons hx hp => exact node fun _ _ => .subst (.cons hx hp) hX hc

theorem replaceOne {old old' new new' : SomeTerm} (ho : G.ρ.Consts old old') (hn : G.ρ.Same X new new')
    (hX : ∀ n s, G.ρ.Counts Y n s → G.ρ.Counts X n s ∨ old = ⟨s, .const n s⟩) (hc : G.ρ.Alike Y c c') :
    G.Both T F (G.ρ.Alike X) (Walk.substitute c [old] [new]) (Walk.substitute c' [old'] [new']) := by
  have hp : List.Forall₂ (G.ρ.Trades X) [(old, new)] [(old', new')] := .cons ⟨ho, hn⟩ .nil
  exact replaceAll hp (fun n s hs => (hX n s hs).imp_right fun h => ⟨_, List.mem_singleton_self _, h⟩) hc

end Both

/-! ### What a summary is made of -/

variable (G) in
/-- A term that tells nothing of variables with other names. -/
def Still (t : SomeTerm) : Prop := ∀ X, G.ρ.Same X t t

/-- Tables that get terms that tell nothing of variables with other names. -/
theorem Still.puts {ps : List (Var × SomeTerm)} {k : Var → String} {f : Var → SomeTerm → SomeTerm}
    (hps : ∀ p ∈ ps, G.Still (f p.1 p.2)) {d : Smt.Decls} (hd : ∀ n t, d.lookup n = some t → G.Still t) :
    ∀ n t, (ps.foldl (fun t (p : Var × SomeTerm) => Table.put t (k p.1) (f p.1 p.2)) d).lookup n = some t →
      G.Still t := by
  induction ps generalizing d with
  | nil => exact hd
  | cons p ps ih =>
    refine ih (fun q hq => hps q (List.mem_cons_of_mem p hq)) fun n t ht => ?_
    by_cases hnp : n = k p.1
    · subst hnp
      cases (Table.lookup_put_self ..).symm.trans ht
      exact hps p List.mem_cons_self
    · exact hd n t ((Table.lookup_put_of_ne _ _ hnp).symm.trans ht)

variable (G) in
/-- A constant that keeps its name, and what replaces it. -/
structure Fixed (p : SomeTerm × SomeTerm) : Prop where
  old : G.ρ.Consts p.1 p.1
  new : G.Still p.2

theorem Fixed.trades (h : ∀ p ∈ pairs, G.Fixed p) : List.Forall₂ (G.ρ.Trades X) pairs pairs :=
  List.forall₂_same.mpr fun p hp => ⟨(h p hp).old, (h p hp).new X⟩

/-- Only the first of the pairs that replace one constant is kept. -/
theorem Fixed.firsts {effects pairs : List (SomeTerm × SomeTerm)} (he : ∀ p ∈ effects, G.Fixed p)
    (hp : ∀ p ∈ pairs, G.Fixed p) :
    ∀ p ∈ effects.foldl (fun ps p => if ps.any fun q => p.1.same q.1 then ps else ps ++ [p]) pairs,
      G.Fixed p := by
  induction effects generalizing pairs with
  | nil => exact hp
  | cons e es ih =>
    rw [List.foldl_cons]
    refine ih (fun p hmem => he p (List.mem_cons_of_mem e hmem)) fun p hmem => ?_
    split at hmem
    · exact hp p hmem
    · rcases List.mem_append.mp hmem with hmem | hmem
      · exact hp p hmem
      · exact he p (List.mem_cons.mpr (.inl (List.mem_singleton.mp hmem)))

/-- The input registers are the same, and keep their names. -/
theorem Renders.inputRegs (hG : G.Apart) (h : G.Renders T F e e') :
    e'.inputRegs = e.inputRegs ∧ ∀ v ∈ e.inputRegs, ¬ G.ρ.Moves v := by
  obtain ⟨hi, hi'⟩ := h.setting Env.inputRegs fun _ _ => rfl
  refine ⟨hi'.trans hi.symm, fun v hv => hG.conventional ?_⟩
  rw [hi, Env.inputRegs] at hv
  split at hv <;> simp [Walk.conventional, hv]

/-- The parameters of a callee that has its own under their names are the same. -/
theorem withIntents_renamed {callee : Sub} (hkept : ∀ a ∈ callee.args, ¬ G.ρ.Moves a.var) (intents : List Intent) :
    Walk.withIntents (G.ρ.sub callee) intents = Walk.withIntents callee intents ∧
      ∀ v ∈ Walk.withIntents callee intents, v ∈ callee.args.map (·.var) ∧ ¬ G.ρ.Moves v := by
  have hsame : (G.ρ.sub callee).args = callee.args := by
    refine (List.map_congr_left fun a ha => ?_).trans (List.map_id _)
    exact congrArg (Arg.mk · a.intent) (not_not.mp (hkept a ha))
  refine ⟨by rw [Walk.withIntents, Walk.withIntents, hsame], fun v hv => ?_⟩
  obtain ⟨a, ha, rfl⟩ := List.mem_map.mp hv
  have ha := List.mem_of_mem_filter ha
  exact ⟨List.mem_map_of_mem ha, hkept a ha⟩

namespace Both

variable (hG : G.Fair)

include hG

/-- A variable that keeps its name. -/
theorem kept {v : Var} (hv : ¬ G.ρ.Moves v) :
    G.Both G.Own F (fun t t' => t' = t ∧ G.ρ.Consts t t ∧ G.Still t) (Walk.on G.side (Env.mkVar v))
      (Walk.on G.side (Env.mkVar v)) := by
  have hfix : G.ρ v = v := not_not.mp hv
  have h : G.Both G.Own F (G.Own v) (Walk.on G.side (Env.mkVar v)) (Walk.on G.side (Env.mkVar (G.ρ v))) :=
    on fun h => h.mkVar hG fun _ _ ht => ht
  rw [hfix] at h
  refine h.mono fun t t' ht => ?_
  have htt : t' = t := by
    obtain ⟨ht, ht'⟩ := ht
    rw [hfix] at ht'
    exact ht.unique ht'
  subst htt
  exact ⟨rfl, ht.consts, fun X => ht.same fun hm => absurd hm hv⟩

theorem flag (f : String) :
    G.Both T F (fun p p' => p' = p ∧ G.ρ.Consts ⟨_, p⟩ ⟨_, p⟩) (Walk.on G.side (Env.getCalled f))
      (Walk.on G.side (Env.getCalled f)) := by
  refine (on fun h => h.getCalled hG f).mono ?_
  rintro _ p ⟨rfl, n, rfl⟩
  exact ⟨rfl, n, .bool, rfl, rfl⟩

theorem poppedSp : G.Both G.Own F (fun p p' => p' = p ∧ G.Fixed p) (Walk.poppedSp G.side)
    (Walk.poppedSp G.side) := by
  refine env fun e e' h => ?_
  obtain ⟨ha, ha'⟩ := h.setting Env.arch fun _ _ => rfl
  rw [ha, ha']
  refine (kept hG (hG.conventional (by simp [Walk.conventional]))).bind ?_
  rintro _ sp ⟨rfl, hconst, hstill⟩
  refine (lift (Tally.refl _)).after fun s => ?_
  cases s with
  | bv w =>
    refine (lift ((Tally.refl (sp.as (.bv w))).mono (C := fun x x' => x' = x ∧ sp = ⟨_, x⟩) ?_)).bind ?_
    · exact fun x x' hx _ h => ⟨h.symm, SomeTerm.as_eq_ok hx⟩
    · rintro x _ ⟨rfl, rfl⟩
      refine pure ⟨rfl, hconst, fun X => .of_bits fun m m' hm => ?_⟩
      rw [Spine.bits_bin, Spine.bits_bin, (hstill X).word hm]
      rfl
  | bool => exact throw _ _
  | mem => exact throw _ _

theorem returnEffects (callee : Sub) : G.Both G.Own F (fun ps ps' => ps' = ps ∧ ∀ p ∈ ps, G.Fixed p)
    (Walk.returnEffects G.side callee) (Walk.returnEffects G.side (G.ρ.sub callee)) := by
  have hlast (popped : List (SomeTerm × SomeTerm)) (hp : ∀ p ∈ popped, G.Fixed p) :
      G.Both G.Own F (fun ps ps' => ps' = ps ∧ ∀ p ∈ ps, G.Fixed p)
        (do
          let called ← Walk.on G.side (Env.getCalled callee.name)
          return popped ++ [(⟨_, called⟩, ⟨_, .truth true⟩)])
        (do
          let called ← Walk.on G.side (Env.getCalled callee.name)
          return popped ++ [(⟨_, called⟩, ⟨_, .truth true⟩)]) := by
    refine (flag hG _).bind ?_
    rintro called _ ⟨rfl, hcalled⟩
    refine pure ⟨rfl, fun p hmem => ?_⟩
    rcases List.mem_append.mp hmem with hmem | hmem
    · exact hp p hmem
    · cases List.mem_singleton.mp hmem
      exact ⟨hcalled, fun X => ⟨rfl, fun _ _ _ => rfl⟩⟩
  refine env fun e e' h => ?_
  obtain ⟨ha, ha'⟩ := h.setting Env.arch fun _ _ => rfl
  rw [ha, ha']
  split
  · refine (poppedSp hG).bind ?_
    rintro _ p ⟨rfl, hp⟩
    exact hlast [p] fun q hq => List.mem_singleton.mp hq ▸ hp
  · exact hlast [] nofun

omit hG in
/-- The same is made of each item in both walks. -/
theorem mapM_same {α β : Type} {P : β → Prop} {f f' : α → Walk β} {xs : List α}
    (h : ∀ x ∈ xs, G.Both T F (fun y y' => y' = y ∧ P y) (f x) (f' x)) :
    G.Both T F (fun ys ys' => ys' = ys ∧ ∀ y ∈ ys, P y) (xs.mapM f) (xs.mapM f') := by
  have hsame : List.Forall₂ (fun x x' => G.Both T F (fun y y' => y' = y ∧ P y) (f x) (f' x')) xs xs :=
    List.forall₂_same.mpr h
  refine (mapM hsame).mono fun ys ys' hys => ?_
  induction hys with
  | nil => exact ⟨rfl, nofun⟩
  | cons hy _ ih => exact ⟨by rw [hy.1, ih.1], List.forall_mem_cons.mpr ⟨hy.2, ih.2⟩⟩

theorem summaryPairs {callee : Sub} {inputs outputs : List Var} (hi : ∀ v ∈ inputs, ¬ G.ρ.Moves v)
    (ho : ∀ v ∈ outputs, ¬ G.ρ.Moves v) (hr : ∀ out ∈ outputs, ∀ v, G.ρ.Moves v →
      v.name ≠ G.base.canonical callee.name ++ "_" ++ out.name) :
    G.Both G.Own F (fun ps ps' => ps' = ps ∧ ∀ p ∈ ps, G.Fixed p)
      (Walk.summaryPairs G.side callee inputs outputs)
      (Walk.summaryPairs G.side (G.ρ.sub callee) inputs outputs) := by
  refine (mapM_same (P := G.Still) fun v hv => (kept hG (hi v hv)).mono fun _ _ h => ⟨h.1, h.2.2⟩).bind ?_
  rintro _ args ⟨rfl, hargs⟩
  refine (mapM_same (P := fun _ => True) fun v _ => ofExcept ((Tally.refl _).mono fun _ _ _ _ h =>
    ⟨h.symm, True.intro⟩)).bind ?_
  rintro _ sorts ⟨rfl, -⟩
  refine env fun e e' h => ?_
  obtain ⟨hc, hc'⟩ := h.setting (·.canonical callee.name) fun _ _ => rfl
  rw [hc, show e'.canonical (G.ρ.sub callee).name = _ from hc']
  refine (mapM_same (P := G.Fixed) fun out hout => ?_).bind ?_
  · refine (lift ((Tally.refl _).mono (C := fun s s' => s' = s ∧ out.type.sort = .ok s)
      fun _ _ hs _ h => ⟨h.symm, hs⟩)).bind ?_
    rintro _ ran ⟨rfl, hran⟩
    refine (on fun h => h.declare ..).bind ?_
    rintro _ f ⟨rfl, hname⟩
    refine (kept hG (ho out hout)).bind ?_
    rintro _ old ⟨rfl, hconst, -⟩
    refine (lift (A := fun t t' => t' = t ∧ G.Still t) ?_).bind ?_
    · have happly (X : Var → Prop) : Tally (G.ρ.Same X) (f.apply args) (f.apply args) :=
        Renaming.Same.apply f (List.forall₂_same.mpr fun t ht => hargs t ht X)
          (same_const fun v hv _ => hname ▸ hr out hout v hv)
      cases hres : f.apply args with
      | error => exact .error
      | ok t =>
        refine .ok ⟨rfl, fun X => ?_⟩
        have hX := happly X
        rw [hres] at hX
        cases hX with
        | ok hX => exact hX
    · rintro _ new ⟨rfl, hnew⟩
      exact pure ⟨rfl, hconst, hnew⟩
  · rintro _ changed ⟨rfl, hchanged⟩
    refine (returnEffects hG callee).bind ?_
    rintro _ effects ⟨rfl, heffects⟩
    exact pure ⟨rfl, Fixed.firsts heffects hchanged⟩

omit hG in
/-- Both walks replace the same by the same. -/
theorem replaceFixed {x x' : Walk (List (SomeTerm × SomeTerm))}
    (h : G.Both T F (fun ps ps' => ps' = ps ∧ ∀ p ∈ ps, G.Fixed p) x x') (hc : G.ρ.Alike X c c') :
    G.Both T F (G.ρ.Alike X) (x >>= fun ps => Walk.replaceAll c ps) (x' >>= fun ps => Walk.replaceAll c' ps) := by
  refine h.bind ?_
  rintro _ ps ⟨rfl, hps⟩
  exact replaceAll (Fixed.trades hps) (fun _ _ h => .inl h) hc

theorem summary {callee : Sub} {inputs outputs : List Var} (hi : ∀ v ∈ inputs, ¬ G.ρ.Moves v)
    (ho : ∀ v ∈ outputs, ¬ G.ρ.Moves v) (hr : ∀ out ∈ outputs, ∀ v, G.ρ.Moves v →
      v.name ≠ G.base.canonical callee.name ++ "_" ++ out.name) (hc : G.ρ.Alike X c c') :
    G.Both G.Own F (G.ρ.Alike X) (Walk.summary G.side callee inputs outputs c)
      (Walk.summary G.side (G.ρ.sub callee) inputs outputs c') := by
  rw [summary_eq, summary_eq]
  exact replaceFixed (summaryPairs hG hi ho hr) hc

theorem firstArg : G.Both G.Own F (G.ρ.Same X) (Walk.firstArg G.side) (Walk.firstArg G.side) := by
  refine env fun e e' h => ?_
  obtain ⟨ha, ha'⟩ := h.setting Env.arch fun _ _ => rfl
  rw [ha, ha']
  dsimp only
  split
  · rename_i r rest hregs
    refine (kept hG (hG.conventional (by simp [Walk.conventional, hregs]))).mono ?_
    rintro _ t ⟨rfl, -, h⟩
    exact h X
  · refine (poppedSp hG).bind ?_
    rintro _ p ⟨rfl, hp⟩
    refine (kept hG (hG.conventional (by simp [Walk.conventional]))).bind ?_
    rintro _ m ⟨rfl, -, hm⟩
    exact lift ((hm X).load _ _ (hp.new X))

omit hG in
/-- A text about terms that tell nothing of variables with other names. -/
theorem formula {text : String} {d : Smt.Decls} (hd : ∀ n t, d.lookup n = some t → G.Still t) :
    G.Both T F (G.ρ.Alike X) (Walk.formula text d) (Walk.formula text d) := by
  unfold Walk.formula
  cases hps : Smt.assertions d text with
  | none => exact throw _ _
  | some ps =>
    have hsame (m m' : Model) (hm : G.ρ.Sees X m m') :
        List.Forall₂ (fun p q : Term .bool => p.eval m = q.eval m') ps ps := by
      refine Smt.assertions_alike (fun n => .inl ?_) hps hps
      cases ht : d.lookup n with
      | none => exact .none
      | some t => exact .some (SomeTerm.alike_iff.mpr ((hd n t ht X).value m m' hm).symm)
    have hand {qs : List (Term .bool)} (h : ∀ m m', G.ρ.Sees X m m' →
        List.Forall₂ (fun p q : Term .bool => p.eval m = q.eval m') qs qs) :
        G.ρ.Same X ⟨_, Term.and qs⟩ ⟨_, Term.and qs⟩ :=
      .of_holds fun m m' hm => (Smt.and_alike (h m m' hm)).symm
    match ps with
    | [] => exact mkGoal ⟨rfl, fun _ _ _ => rfl⟩ ..
    | [p] =>
      refine mkGoal (.of_holds fun m m' hm => ?_) ..
      cases hsame m m' hm with
      | cons h _ => exact h.symm
    | p :: q :: ps => exact mkGoal (hand hsame) ..

omit hG in
theorem substituteFixed {olds news : List SomeTerm} (ho : ∀ t ∈ olds, G.ρ.Consts t t)
    (hn : ∀ t ∈ news, G.Still t) (hc : G.ρ.Alike X c c') :
    G.Both T F (G.ρ.Alike X) (Walk.substitute c olds news) (Walk.substitute c' olds news) := by
  refine ite (fun _ => pure hc) fun _ => ite (fun _ => throw _ _) fun _ => node fun _ _ => ?_
  refine .subst (Fixed.trades fun p hp => ?_) (fun _ _ h => .inl h) hc
  exact ⟨ho _ (List.of_mem_zip hp).1, hn _ (List.of_mem_zip hp).2⟩

theorem contract (callee : Sub) {name : String}
    (hn : ∀ r ∈ G.base.arch.callerSaved, G.ρ.Spares G.base.names (name ++ "_" ++ r.name)) (pre post : String)
    (hc : G.ρ.Alike X c c') :
    G.Both G.Own F (G.ρ.Alike X) (Walk.contract G.side callee name pre post c)
      (Walk.contract G.side (G.ρ.sub callee) name pre post c') := by
  refine env fun e e' h => ?_
  obtain ⟨ha, ha'⟩ := h.setting Env.arch fun _ _ => rfl
  rw [ha, ha']
  refine (mapM_same (P := fun p : Var × SomeTerm => G.ρ.Consts p.2 p.2 ∧ G.Still p.2) fun r hr => ?_).bind ?_
  · refine (kept hG (hG.conventional (by simp [Walk.conventional, hr]))).bind ?_
    rintro _ t ⟨rfl, ht⟩
    exact pure ⟨rfl, ht⟩
  rintro _ current ⟨rfl, hcurrent⟩
  refine (mapM_same (P := fun p : Var × SomeTerm => G.Still p.2) fun r hr => ?_).bind ?_
  · refine (on fun h => h.fresh (hn r hr) r.type).bind ?_
    rintro _ t ⟨rfl, ht⟩
    exact pure ⟨rfl, ht⟩
  rintro _ chaos ⟨rfl, hchaos⟩
  have hlater (p : Var × SomeTerm) (hp : p ∈ current) : G.Still ((chaos.lookup p.1).getD p.2) := by
    cases hl : chaos.lookup p.1 with
    | none => exact (hcurrent p hp).2
    | some t => exact hchaos _ (Table.mem_of_lookup hl)
  have hempty (n : String) (t : SomeTerm) (h : ([] : Smt.Decls).lookup n = some t) : G.Still t := by cases h
  have hnow {k : Var → String} {d : Smt.Decls} (hd : ∀ n t, d.lookup n = some t → G.Still t) :=
    Still.puts (k := k) (f := fun _ t => t) (fun p hp => (hcurrent p hp).2) hd
  refine (formula (X := X) (hnow (k := (·.name)) hempty)).bind fun subPre subPre' hpre => ?_
  refine (formula (X := X) (hnow (k := (initFront ++ ·.name)) (Still.puts (k := (·.name))
    (f := fun r t => (chaos.lookup r).getD t) hlater hempty))).bind fun subPost subPost' hpost => ?_
  refine (mapM_same (P := fun t => G.ρ.Consts t t) fun p _ => present ?_).bind ?_
  · cases hl : current.lookup p.1 with
    | none => exact .none
    | some t => exact .some ⟨rfl, (hcurrent _ (Table.mem_of_lookup hl)).1⟩
  rintro _ olds ⟨rfl, holds⟩
  refine (substituteFixed holds (fun t ht => ?_) hc).bind fun _ _ hchaosed => ?_
  · obtain ⟨p, hp, rfl⟩ := List.mem_map.mp ht
    exact hchaos p hp
  refine (returnEffects hG callee).bind ?_
  rintro _ effects ⟨rfl, heffects⟩
  refine (replaceAll (Fixed.trades heffects) (fun _ _ h => .inl h) hchaosed).bind fun _ _ hreturned => ?_
  exact (mkClause (.cons hpost .nil) (.cons hreturned .nil)).bind fun _ _ h =>
    mkClause .nil (.cons hpre (.cons h .nil))

theorem summarize {rule : CallRule} {callee : Sub} (hr : G.ρ.SparesRule G.base callee rule) (tid : String)
    (hc : G.ρ.Alike X c c') :
    G.Both G.Own F (G.ρ.Alike X) (Walk.summarize G.side rule callee c tid)
      (Walk.summarize G.side rule (G.ρ.sub callee) c' tid) := by
  refine env fun e e' h => ?_
  obtain ⟨ha, ha'⟩ := h.setting Env.arch fun _ _ => rfl
  rw [ha, ha']
  cases rule with
  | verifierError => exact mkGoal ⟨rfl, fun _ _ _ => rfl⟩ ..
  | verifierAssume =>
    refine (firstArg (X := X) hG).bind fun _ _ h => (lift h.condition).bind fun _ _ h => ?_
    exact (mkGoal h ..).bind fun _ _ h => mkClause (.cons h .nil) (.cons hc .nil)
  | verifierNondet =>
    dsimp only
    cases hret : G.base.arch.returnReg with
    | none => exact throw _ _
    | some ret =>
      refine (on fun h => h.fresh hr ret.type).bind ?_
      rintro value _ ⟨rfl, hvalue⟩
      refine (kept hG (hG.conventional (by simp [Walk.conventional, hret]))).bind ?_
      rintro old _ ⟨rfl, hold, -⟩
      exact replaceOne hold (hvalue X) (fun _ _ h => .inl h) hc
  | empty =>
    refine (flag hG _).bind ?_
    rintro called _ ⟨rfl, hcalled⟩
    exact replaceOne hcalled ⟨rfl, fun _ _ _ => rfl⟩ (fun _ _ h => .inl h) hc
  | argTerms =>
    have hin := withIntents_renamed hr.2 [.input, .both]
    have hout := withIntents_renamed hr.2 [.output, .both]
    dsimp only
    rw [hin.1, hout.1]
    exact summary hG (fun v hv => (hin.2 v hv).2) (fun v hv => (hout.2 v hv).2)
      (fun v hv => hr.1 v (.inr (hout.2 v hv).1)) hc
  | raxOut | chaosRax =>
    dsimp only
    cases hret : G.base.arch.returnReg with
    | none => exact throw _ _
    | some ret =>
      have hconv : ret ∈ Walk.conventional G.base.arch := by simp [Walk.conventional, hret]
      refine env fun e e' h => ?_
      obtain ⟨hsame, hinputs⟩ := h.inputRegs hG.toApart
      rw [hsame]
      exact summary hG hinputs (fun v hv => List.mem_singleton.mp hv ▸ hG.conventional hconv)
        (fun v hv => List.mem_singleton.mp hv ▸ hr ret (.inl hconv)) hc
  | chaosCallerSaved =>
    have hconv {v : Var} (hv : v ∈ G.base.arch.callerSaved) : v ∈ Walk.conventional G.base.arch := by
      simp [Walk.conventional, hv]
    refine env fun e e' h => ?_
    obtain ⟨hsame, hinputs⟩ := h.inputRegs hG.toApart
    rw [hsame]
    exact summary hG hinputs (fun v hv => hG.conventional (hconv hv)) (fun v hv => hr v (.inl (hconv hv))) hc
  | contract name pre post => exact contract hG callee hr pre post hc
  | default => exact replaceFixed (returnEffects hG callee) hc
  | inline => exact replaceFixed (returnEffects hG callee) hc

end Both

end Guise

end Precond

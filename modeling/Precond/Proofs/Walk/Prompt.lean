import Mathlib.Order.Defs.Unbundled
import Precond.Proofs.Walk.Monad
import Precond.Walk.Block

/-! Actions that end by themselves. All that a walk does apart from going from block to block and into
callees ends, with a result or with a fault of its own, and the walk is then where it was
(`Walk.Prompt`). Which faults may come is told by a class of faults: those of operations are always
among them, and that a variable stands for nothing comes of translations only. -/

namespace Precond

open IR Precond.Flow

/-- A fault of an operation: neither have steps run out, nor does a variable stand for nothing. -/
def Fault.Own (f : Fault) : Prop := f ≠ .outOfFuel ∧ ∀ name, f ≠ .translation (.unbound name)

/-- The faults of operations are among the faults. -/
class Admits (F : Fault → Prop) : Prop where
  own {f : Fault} : f.Own → F f

/-- Steps have not run out. -/
abbrev Fault.Proper (f : Fault) : Prop := f ≠ .outOfFuel

instance : Admits Fault.Proper := ⟨And.left⟩

/-! ### Operations on terms -/

namespace Term

/-- An operation that has only faults of its own. -/
structure Prompt (x : Except Fault α) : Prop where
  proper : x = .error f → f.Own

namespace Prompt

theorem ok (a : α) : Prompt (.ok a) := ⟨nofun⟩

theorem error {f : Fault} (h : f.Own) : Prompt (.error f : Except Fault α) :=
  ⟨fun hf => by cases hf; exact h⟩

theorem bind {x : Except Fault α} {k : α → Except Fault β} (hx : Prompt x) (hk : ∀ a, Prompt (k a)) :
    Prompt (x >>= k) := by
  cases x with
  | ok a => exact hk a
  | error f => exact error (hx.proper rfl)

theorem ite {c : Prop} [Decidable c] {x y : Except Fault α} (hx : Prompt x) (hy : Prompt y) :
    Prompt (if c then x else y) := by
  split
  · exact hx
  · exact hy

theorem dite {c : Prop} [Decidable c] {x : c → Except Fault α} {y : ¬ c → Except Fault α}
    (hx : ∀ h, Prompt (x h)) (hy : ∀ h, Prompt (y h)) : Prompt (if h : c then x h else y h) := by
  split
  · exact hx _
  · exact hy _

theorem mapM {xs : List β} {f : β → Except Fault α} (h : ∀ x, Prompt (f x)) :
    Prompt (xs.mapM f) := by
  induction xs with
  | nil => exact ok _
  | cons x xs ih =>
    rw [List.mapM_cons]
    exact (h x).bind fun _ => ih.bind fun _ => ok _

theorem as (s : TSort) (t : SomeTerm) : Prompt (t.as s) :=
  dite (fun _ => ok _) fun _ => error ⟨nofun, nofun⟩

theorem word (what : String) (t : SomeTerm) : Prompt (t.word what) := by
  unfold SomeTerm.word
  split
  · exact ok _
  · exact error ⟨nofun, nofun⟩

theorem memory (what : String) (t : SomeTerm) : Prompt (t.memory what) := by
  unfold SomeTerm.memory
  split
  · exact ok _
  · exact error ⟨nofun, nofun⟩

theorem sized (t : SomeTerm) : Prompt t.sized := by
  unfold SomeTerm.sized
  split
  · exact ok _
  · exact error ⟨nofun, nofun⟩

theorem eq (x y : SomeTerm) : Prompt (x.eq y) := (as _ _).bind fun _ => ok _

theorem condition (t : SomeTerm) : Prompt t.condition := (word _ _).bind fun _ => ok _

theorem extract {w : Nat} (hi lo : Int) (x : Term (.bv w)) : Prompt (Term.extract hi lo x) :=
  ite (ok _) (error ⟨nofun, nofun⟩)

theorem fitShift {v : Nat} (w : Nat) (x : Term (.bv v)) : Prompt (Term.fitShift w x) :=
  dite (fun _ => ok _) fun _ => ite (as _ _) ((extract ..).bind fun _ => as _ _)

theorem binary (op : BinOp) (x y : SomeTerm) : Prompt (Term.binary op x y) := by
  refine (word _ _).bind fun a => (word _ _).bind fun b => ?_
  cases binRule op with
  | shift f => exact (fitShift _ _).bind fun _ => ok _
  | arith f => exact dite (fun _ => ok _) fun _ => error ⟨nofun, nofun⟩
  | compare f => exact dite (fun _ => ok _) fun _ => error ⟨nofun, nofun⟩

theorem unary (op : UnOp) (x : SomeTerm) : Prompt (Term.unary op x) := by
  refine (word _ _).bind fun a => ?_
  cases op <;> exact ok _

theorem castTo (kind : CastKind) (width : Int) (x : SomeTerm) : Prompt (Term.castTo kind width x) := by
  refine (word _ _).bind fun a => ?_
  cases kind with
  | unsigned => exact ite (ok _) (ite (extract ..) (ok _))
  | signed => exact ite (ok _) (ite (extract ..) (ok _))
  | high => exact ite (error ⟨nofun, nofun⟩) (extract ..)
  | low => exact ite (error ⟨nofun, nofun⟩) (extract ..)

theorem extractBits (hi lo : Int) (x : SomeTerm) : Prompt (Term.extractBits hi lo x) :=
  (word _ _).bind fun _ => ite (extract ..) (error ⟨nofun, nofun⟩)

theorem concatWords (x y : SomeTerm) : Prompt (Term.concatWords x y) :=
  (word _ _).bind fun _ => (word _ _).bind fun _ => ok _

theorem choose (c x y : SomeTerm) : Prompt (Term.choose c x y) :=
  dite (fun _ => (condition c).bind fun _ => ok _) fun _ => error ⟨nofun, nofun⟩

theorem cellCount (cell : Nat) (size : Int) : Prompt (Term.cellCount cell size) :=
  ite (ok _) (error ⟨nofun, nofun⟩)

theorem concatAll (x : SomeTerm) (xs : List SomeTerm) : Prompt (Term.concatAll x xs) := by
  induction xs generalizing x with
  | nil => exact ok _
  | cons y ys ih => exact (word _ _).bind fun _ => (word _ _).bind fun _ => ih _

theorem load (mem addr : SomeTerm) (size : Int) (endian : Endian) :
    Prompt (Term.load mem addr size endian) := by
  refine (memory _ _).bind fun _ => (cellCount _ _).bind fun _ => (word _ _).bind fun _ =>
    (as _ _).bind fun _ => ?_
  dsimp only
  split
  · exact error ⟨nofun, nofun⟩
  · exact concatAll _ _

theorem pieces (c : Nat) (value : SomeTerm) (size count : Nat) (endian : Endian) :
    Prompt (Term.pieces c value size count endian) :=
  ite ((as _ _).bind fun _ => ok _)
    ((word _ _).bind fun _ => mapM fun _ => (extract ..).bind fun _ => as _ _)

theorem storeWord (mem addr value : SomeTerm) (size : Int) (endian : Endian) :
    Prompt (Term.storeWord mem addr value size endian) := by
  refine (memory _ _).bind fun _ => (cellCount _ _).bind fun _ => (word _ _).bind fun _ =>
    (word _ _).bind fun _ => ite (error ⟨nofun, nofun⟩) ?_
  exact (as _ _).bind fun _ => (pieces ..).bind fun _ => ok _

theorem sort (type : Ty) : Prompt type.sort := by
  cases type with
  | word => exact ite (ok _) (error ⟨nofun, nofun⟩)
  | memory => exact ite (ok _) (error ⟨nofun, nofun⟩)

theorem applyTo {r : TSort} {d : List TSort} (f : Spine d r) (args : List SomeTerm) :
    Prompt (f.applyTo args) := by
  induction args generalizing d with
  | nil =>
    cases d with
    | nil => exact ok _
    | cons => exact error ⟨nofun, nofun⟩
  | cons x xs ih =>
    cases d with
    | nil => exact error ⟨nofun, nofun⟩
    | cons => exact (as _ _).bind fun _ => ih _

theorem apply (f : FuncDecl) (args : List SomeTerm) : Prompt (f.apply args) := by
  unfold FuncDecl.apply
  split
  · exact ok _
  · exact (applyTo _ _).bind fun _ => ok _

end Prompt

end Term

/-! ### Changes of environments -/

namespace Env

/-- The program, the unroll bound and the callees that are being expanded are the same, and of the
frame so much as `F` tells. -/
structure Stays (F : Frame → Frame → Prop) (e e' : Env) : Prop where
  subs : e'.subs = e.subs
  unrollBound : e'.unrollBound = e.unrollBound
  inlining : e'.inlining = e.inlining
  frame : F e.frame e'.frame

section

variable {F G : Frame → Frame → Prop} {e e₁ e₂ : Env}

theorem Stays.refl [IsPreorder Frame F] (e : Env) : e.Stays F e := ⟨rfl, rfl, rfl, refl_of F _⟩

theorem Stays.trans [IsPreorder Frame F] (h₁ : e.Stays F e₁) (h₂ : e₁.Stays F e₂) : e.Stays F e₂ :=
  ⟨h₂.subs.trans h₁.subs, h₂.unrollBound.trans h₁.unrollBound, h₂.inlining.trans h₁.inlining,
    trans_of F h₁.frame h₂.frame⟩

theorem Stays.mono (h : e.Stays F e₁) (hF : ∀ f f', F f f' → G f f') : e.Stays G e₁ :=
  ⟨h.subs, h.unrollBound, h.inlining, hF _ _ h.frame⟩

end

/-- The walk is where it was. -/
abbrev Still (e e' : Env) : Prop := e.Stays Eq e'

/-- An action that leaves a walk where it is, or has one of the faults. -/
structure Prompt (F : Fault → Prop) (act : EnvM α) : Prop where
  still : act e = .ok a e' → e.Still e'
  proper : act e = .error f e' → F f

namespace Prompt

variable {F : Fault → Prop}

theorem pure (a : α) : Prompt F (Pure.pure a : EnvM α) :=
  ⟨fun h => by cases h; exact .refl _, nofun⟩

theorem throw {f : Fault} (hf : F f) : Prompt F (MonadExcept.throw f : EnvM α) :=
  ⟨nofun, fun h => by cases h; exact hf⟩

theorem bind {x : EnvM α} {k : α → EnvM β} (hx : Prompt F x) (hk : ∀ a, Prompt F (k a)) :
    Prompt F (x >>= k) := by
  refine ⟨fun h => ?_, fun {e f e'} h => ?_⟩
  · obtain ⟨a, e₁, ha, h₁⟩ := EnvM.bind_ok h
    exact (hx.still ha).trans ((hk a).still h₁)
  · rw [show (x >>= k) e = EStateM.bind x k e from rfl, EStateM.bind] at h
    split at h
    · exact (hk _).proper h
    · cases h
      exact hx.proper ‹_›

theorem get : Prompt F (get : EnvM Env) := ⟨fun h => by cases h; exact .refl _, nofun⟩

theorem modify {f : Env → Env} (hf : ∀ e : Env, e.Still (f e)) : Prompt F (modify f : EnvM Unit) :=
  ⟨fun h => by cases h; exact hf _, nofun⟩

theorem keep {f : Env → Env} {a : α} (hf : ∀ e : Env, e.Still (f e)) :
    Prompt F ((do MonadState.modifyGet fun e => (PUnit.unit, f e); return a) : EnvM α) :=
  (modify hf).bind fun _ => pure a

theorem getVar (v : Var) : Prompt Fault.Proper (Env.getVar v) := by
  refine get.bind fun e => ?_
  split
  · exact pure _
  · exact throw nofun

theorem newName (name : String) : Prompt F (Env.newName name) :=
  ⟨fun h => by cases h; exact ⟨rfl, rfl, rfl, rfl⟩, nofun⟩

theorem constName (name : String) : Prompt F (Env.constName name) := by
  refine get.bind fun e => ?_
  split
  · exact newName _
  · exact pure _

theorem addVar (v : Var) (t : SomeTerm) : Prompt F (Env.addVar v t) :=
  modify fun _ => ⟨rfl, rfl, rfl, rfl⟩

theorem declare (name : String) (dom : List TSort) (ran : TSort) :
    Prompt F (Env.declare name dom ran) := by
  refine get.bind fun e => ?_
  split
  · exact pure _
  · exact keep fun _ => ⟨rfl, rfl, rfl, rfl⟩

theorem getCalled (name : String) : Prompt F (Env.getCalled name) := by
  refine get.bind fun e => get.bind fun e' => ?_
  split
  · exact pure _
  · refine (constName _).bind fun _ => ?_
    exact keep fun _ => ⟨rfl, rfl, rfl, rfl⟩

theorem note (kind : WeakeningKind) (tid detail : String) : Prompt F (Env.note kind tid detail) :=
  modify fun _ => ⟨rfl, rfl, rfl, rfl⟩

variable [Admits F]

theorem fail {f : Fault} (hf : f.Own) : Prompt F (MonadExcept.throw f : EnvM α) :=
  throw (Admits.own hf)

theorem ofExcept {x : Except Fault α} (hx : Term.Prompt x) : Prompt F (Env.ofExcept x) := by
  cases x with
  | ok a => exact pure a
  | error f => exact fail (hx.proper rfl)

theorem const (name : String) (type : Ty) : Prompt F (Env.const name type) :=
  (ofExcept (.sort _)).bind fun _ => pure _

theorem mkVar (v : Var) : Prompt F (Env.mkVar v) := by
  refine get.bind fun e => ?_
  split
  · exact pure _
  · refine (constName _).bind fun _ => (const ..).bind fun _ => ?_
    exact keep fun _ => ⟨rfl, rfl, rfl, rfl⟩

theorem fresh (name : String) (type : Ty) : Prompt F (Env.fresh name type) :=
  (newName _).bind fun _ => const ..

theorem handler (s : Sub) : Prompt F (Env.handler s) := by
  have hkeep (h : Handler) : Prompt F (Env.handler.keep s h) :=
    keep fun _ => ⟨rfl, rfl, rfl, rfl⟩
  refine get.bind fun e => ?_
  split
  · exact pure _
  split
  · exact hkeep _
  split
  · exact hkeep _
  · exact fail ⟨nofun, nofun⟩

end Prompt

end Env

/-! ### Actions of a walk -/

/-- The walks of both programs are where they were. -/
def World.Still (w w' : World) : Prop := ∀ side, (w.env side).Still (w'.env side)

namespace World.Still

theorem refl (w : World) : w.Still w := fun _ => .refl _

theorem trans {w w₁ w₂ : World} (h₁ : w.Still w₁) (h₂ : w₁.Still w₂) : w.Still w₂ :=
  fun side => (h₁ side).trans (h₂ side)

theorem setEnv {w : World} {side : Side} {e : Env} (h : (w.env side).Still e) :
    w.Still (w.setEnv side e) := by
  intro side'
  by_cases hs : side' = side
  · subst hs
    rw [World.env_setEnv]
    exact h
  · rw [World.env_setEnv_of_ne _ _ _ hs]
    exact .refl _

theorem stays {w w' : World} {side : Side} {F : Frame → Frame → Prop} [IsPreorder Frame F]
    (h : w.Still w') : (w.env side).Stays F (w'.env side) :=
  (h side).mono fun _ _ hf => hf ▸ refl_of F _

end World.Still

namespace Walk

/-- An action that leaves both walks where they are, or has one of the faults. -/
structure Prompt (F : Fault → Prop) (act : Walk α) : Prop where
  ends (w : World) : Outcome (fun _ w' => w.Still w') F act w

namespace Prompt

variable {F : Fault → Prop}

theorem pure (a : α) : Prompt F (Pure.pure a : Walk α) := ⟨fun w => .pure (.refl w)⟩

theorem throw {f : Fault} (hf : F f) : Prompt F (MonadExcept.throw f : Walk α) :=
  ⟨fun _ => .throw hf⟩

theorem bind {x : Walk α} {k : α → Walk β} (hx : Prompt F x) (hk : ∀ a, Prompt F (k a)) :
    Prompt F (x >>= k) :=
  ⟨fun w => (hx.ends w).bind fun a w₁ h₁ =>
    ((hk a).ends w₁).mono (fun _ _ h₂ => h₁.trans h₂) fun _ hf => hf⟩

theorem ite {c : Prop} [Decidable c] {x y : Walk α} (hx : Prompt F x) (hy : Prompt F y) :
    Prompt F (if c then x else y) := by
  split
  · exact hx
  · exact hy

theorem mapM {xs : List β} {f : β → Walk α} (h : ∀ x, Prompt F (f x)) : Prompt F (xs.mapM f) := by
  induction xs with
  | nil => exact pure _
  | cons x xs ih =>
    rw [List.mapM_cons]
    exact (h x).bind fun _ => ih.bind fun _ => pure _

theorem env (side : Side) : Prompt F (Walk.env side) := ⟨fun w => .env (.refl w)⟩

theorem on {act : EnvM α} (h : Env.Prompt F act) (side : Side) : Prompt F (Walk.on side act) :=
  ⟨fun _ => .on (fun _ _ ha => .setEnv (h.still ha)) fun _ _ hf => h.proper hf⟩

theorem modifyEnv {f : Env → Env} (hf : ∀ e : Env, e.Still (f e)) (side : Side) :
    Prompt F (Walk.modifyEnv side f) := ⟨fun _ => .modifyEnv (.setEnv (hf _))⟩

theorem restoring {f : Env → Env} (hf : ∀ e : Env, e.Still (f e)) {side : Side} {act : Walk α}
    (h : Prompt F act) : Prompt F (Walk.restoring side f act) :=
  ⟨fun w => .restoring ((h.ends w).mono (fun _ _ hw => hw.trans (.setEnv (hf _))) fun _ hf => hf)⟩

theorem binding {side : Side} {v : Var} {t : SomeTerm} {act : Walk α} (h : Prompt F act) :
    Prompt F (Walk.binding side v t act) := by
  refine (env side).bind fun e => (on (.addVar v t) side).bind fun _ => restoring (fun e' => ?_) h
  unfold Env.restoreVar
  split <;> exact ⟨rfl, rfl, rfl, rfl⟩

theorem newNode : Prompt F Walk.newNode := ⟨fun _ side => by cases side <;> exact .refl _⟩

theorem mkGoal (name : String) (value : Term .bool) (tid : Option String) :
    Prompt F (Walk.mkGoal name value tid) := newNode.bind fun _ => pure _

theorem mkClause (hyps goals : List Constr) : Prompt F (Walk.mkClause hyps goals) :=
  newNode.bind fun _ => pure _

theorem mkBranch (jump : String) (cond : Term .bool) (yes no : Constr) :
    Prompt F (Walk.mkBranch jump cond yes no) := newNode.bind fun _ => pure _

theorem trivial : Prompt F Walk.trivial := mkGoal ..

theorem countTranslation :
    Prompt F (modify fun w : World => { w with translations := w.translations + 1 }) :=
  ⟨fun _ side => by cases side <;> exact .refl _⟩

theorem guard (assumes verifies : List Hook) (post : Constr) :
    Prompt F (Walk.guard assumes verifies post) :=
  ite (pure _) ((mapM fun _ => mkGoal ..).bind fun _ => (mapM fun _ => mkGoal ..).bind fun _ =>
    mkClause ..)

variable [Admits F]

theorem fail {f : Fault} (hf : f.Own) : Prompt F (MonadExcept.throw f : Walk α) :=
  throw (Admits.own hf)

theorem ofExcept {x : Except Fault α} (hx : Term.Prompt x) : Prompt F (Walk.ofExcept x) :=
  ⟨fun w => .ofExcept (fun _ _ => .refl w) fun _ h => Admits.own (hx.proper h)⟩

theorem lift {x : Except Fault α} (hx : Term.Prompt x) : Prompt F (liftM x : Walk α) := ofExcept hx

theorem present (o : Option α) : Prompt F (Walk.present o) := by
  cases o with
  | some a => exact pure a
  | none => exact fail ⟨nofun, nofun⟩

theorem substitute (c : Constr) (olds news : List SomeTerm) : Prompt F (Walk.substitute c olds news) :=
  ite (pure _) (ite (fail ⟨nofun, nofun⟩) (newNode.bind fun _ => pure _))

/-! ### Translation -/

variable {side : Side} {watch : Exp → Walk (List Hook)}

theorem translateWith (hw : ∀ e, Prompt Fault.Proper (watch e)) (e : Exp) :
    Prompt Fault.Proper (Walk.translateWith side watch e) := by
  induction e with
  | var v => exact (hw _).bind fun _ => (on (.getVar v) side).bind fun _ => pure _
  | lit x => exact (hw _).bind fun _ => ite (throw nofun) (pure _)
  | bin op l r ihl ihr =>
    exact (hw _).bind fun _ => ihl.bind fun _ => ihr.bind fun _ => (lift (.binary ..)).bind fun _ =>
      pure _
  | un op a ih => exact (hw _).bind fun _ => ih.bind fun _ => (lift (.unary ..)).bind fun _ => pure _
  | cast kind width a ih =>
    exact (hw _).bind fun _ => ih.bind fun _ => (lift (.castTo ..)).bind fun _ => pure _
  | load mem addr endian size ihm iha =>
    exact (hw _).bind fun _ => ihm.bind fun _ => iha.bind fun _ => (lift (.load ..)).bind fun _ =>
      pure _
  | store mem addr value endian size ihm iha ihv =>
    exact (hw _).bind fun _ => ihm.bind fun _ => iha.bind fun _ => ihv.bind fun _ =>
      (lift (.storeWord ..)).bind fun _ => pure _
  | ite cond yes no ihc ihy ihn =>
    exact (hw _).bind fun _ => ihc.bind fun _ => ihy.bind fun _ => ihn.bind fun _ =>
      (lift (.choose ..)).bind fun _ => pure _
  | extract hi lo a ih =>
    exact (hw _).bind fun _ => ih.bind fun _ => (lift (.extractBits ..)).bind fun _ => pure _
  | concat l r ihl ihr =>
    exact (hw _).bind fun _ => ihl.bind fun _ => (ofExcept (.word ..)).bind fun _ => ihr.bind fun _ =>
      (lift (.concatWords ..)).bind fun _ => pure _
  | letIn v value body ihv ihb =>
    exact (hw _).bind fun _ => ihv.bind fun _ => (binding ihb).bind fun _ => pure _
  | unknown text type => exact (hw _).bind fun _ => (on (.fresh ..) side).bind fun _ => pure _

theorem translate (side : Side) (e : Exp) : Prompt Fault.Proper (Walk.translate side e) :=
  (translateWith (fun _ => pure _) e).bind fun _ => pure _

theorem condition (side : Side) (e : Exp) : Prompt Fault.Proper (Walk.condition side e) :=
  (translate side e).bind fun t => lift (.condition t)

theorem sideCondition (side : Side) (e : Exp) (rule : SideRule) :
    Prompt Fault.Proper (Walk.sideCondition side e rule) := by
  have hsized (e : Exp) {k : ((w : Nat) × Term (.bv w)) → Walk (Option Hook)}
      (hk : ∀ a, Prompt Fault.Proper (k a)) :
      Prompt Fault.Proper (do k (← (← Walk.translate side e).sized)) :=
    (translate side e).bind fun t => (lift (.sized t)).bind hk
  unfold Walk.sideCondition
  split
  · split
    · exact pure _
    · exact hsized _ fun _ => pure _
  · split
    · exact pure _
    · exact hsized _ fun _ => (env side).bind fun _ => pure _
  · split
    · exact ite (hsized _ fun _ => pure _) (pure _)
    · exact pure _
  · split
    · refine (translate ..).bind fun _ => (translate ..).bind fun _ => (lift (.load ..)).bind fun _ =>
        (on (.mkVar _) .mod).bind fun _ => ite (throw nofun) ?_
      exact (lift (.as ..)).bind fun _ => (lift (.load ..)).bind fun _ => (lift (.eq ..)).bind fun _ =>
        pure _
    · exact pure _
  · exact ite ((condition ..).bind fun _ => pure _) (pure _)

theorem sideConditions (side : Side) (rules : List SideRule) (e : Exp) :
    Prompt Fault.Proper (Walk.sideConditions side rules e) := by
  induction rules with
  | nil => exact pure _
  | cons rule rules ih => exact (sideCondition ..).bind fun _ => ih.bind fun _ => pure _

theorem translateChecked (side : Side) (e : Exp) :
    Prompt Fault.Proper (Walk.translateChecked side e) :=
  countTranslation.bind fun _ => (env side).bind fun _ => translateWith (sideConditions side _) e

/-! ### Calls that are not expanded -/

theorem poppedSp (side : Side) : Prompt F (Walk.poppedSp side) := by
  refine (env side).bind fun e => (on (.mkVar _) side).bind fun _ => (lift (.sort _)).bind fun s => ?_
  cases s with
  | bv w => exact (lift (.as ..)).bind fun _ => pure _
  | bool => exact fail ⟨nofun, nofun⟩
  | mem => exact fail ⟨nofun, nofun⟩

theorem returnEffects (side : Side) (callee : Sub) : Prompt F (Walk.returnEffects side callee) := by
  refine (env side).bind fun _ => ite ((poppedSp side).bind fun _ => ?_) ?_
  all_goals exact (pure _).bind fun _ => (on (.getCalled _) side).bind fun _ => pure _

theorem replaceAll (c : Constr) (pairs : List (SomeTerm × SomeTerm)) :
    Prompt F (Walk.replaceAll c pairs) := substitute ..

theorem summary (side : Side) (callee : Sub) (inputs outputs : List Var) (post : Constr) :
    Prompt F (Walk.summary side callee inputs outputs post) := by
  refine (mapM fun v => on (.mkVar v) side).bind fun args =>
    (mapM fun _ => ofExcept (.sort _)).bind fun sorts => (env side).bind fun e => ?_
  refine (mapM fun out => ?_).bind fun changed => (returnEffects side callee).bind fun effects =>
    replaceAll ..
  exact (lift (.sort _)).bind fun _ => (on (.declare ..) side).bind fun _ =>
    (on (.mkVar _) side).bind fun _ => (lift (.apply ..)).bind fun _ => pure _

theorem firstArg (side : Side) : Prompt F (Walk.firstArg side) := by
  refine (env side).bind fun e => ?_
  split
  · exact on (.mkVar _) side
  · exact (poppedSp side).bind fun _ => (on (.mkVar _) side).bind fun _ => lift (.load ..)

theorem formula (text : String) (decls : Smt.Decls) : Prompt F (Walk.formula text decls) := by
  unfold Walk.formula
  split
  · exact fail ⟨nofun, nofun⟩
  · exact mkGoal ..
  · exact mkGoal ..

theorem contract (side : Side) (callee : Sub) (name pre post : String) (after : Constr) :
    Prompt F (Walk.contract side callee name pre post after) := by
  refine (env side).bind fun e => ?_
  refine (mapM fun r => (on (.mkVar r) side).bind fun _ => pure _).bind fun current => ?_
  refine (mapM fun r => (on (.fresh ..) side).bind fun _ => pure _).bind fun chaos => ?_
  refine (formula ..).bind fun subPre => (formula ..).bind fun subPost => ?_
  refine (mapM fun r => present _).bind fun olds => (substitute ..).bind fun chaosed => ?_
  exact (returnEffects side callee).bind fun _ => (replaceAll ..).bind fun _ =>
    (mkClause ..).bind fun _ => mkClause ..

theorem summarize (side : Side) (rule : CallRule) (callee : Sub) (post : Constr) (tid : String) :
    Prompt F (Walk.summarize side rule callee post tid) := by
  refine (env side).bind fun e => ?_
  cases rule with
  | verifierError => exact mkGoal ..
  | verifierAssume =>
    exact (firstArg side).bind fun _ => (lift (.condition _)).bind fun _ => (mkGoal ..).bind fun _ =>
      mkClause ..
  | verifierNondet =>
    dsimp only
    split
    · exact fail ⟨nofun, nofun⟩
    · exact (on (.fresh ..) side).bind fun _ => (on (.mkVar _) side).bind fun _ => substitute ..
  | empty => exact (on (.getCalled _) side).bind fun _ => substitute ..
  | argTerms => exact summary ..
  | raxOut | chaosRax =>
    dsimp only
    split
    · exact fail ⟨nofun, nofun⟩
    · exact (env side).bind fun _ => summary ..
  | chaosCallerSaved => exact (env side).bind fun _ => summary ..
  | contract => exact contract ..
  | default => exact (returnEffects side callee).bind fun _ => replaceAll ..
  | inline => exact (returnEffects side callee).bind fun _ => replaceAll ..

/-! ### Blocks -/

theorem assign (side : Side) (post : Constr) (lhs : Var) (rhs : Exp) :
    Prompt Fault.Proper (Walk.assign side post lhs rhs) :=
  (translateChecked side rhs).bind fun _ => (on (.mkVar lhs) side).bind fun _ =>
    ite (throw nofun) ((guard ..).bind fun _ => (substitute ..).bind fun _ => guard ..)

theorem visitPhi (side : Side) (post : Constr) (p : Phi) :
    Prompt Fault.Proper (Walk.visitPhi side post p) := by
  refine (env side).bind fun e => ?_
  split
  · exact assign ..
  · exact (on (.note ..) side).bind fun _ => assign ..

omit [Admits F] in
theorem targetPre (side : Side) (l : Label) (default : Constr) :
    Prompt F (Walk.targetPre side l default) := by
  cases l with
  | direct => exact (env side).bind fun _ => pure _
  | indirect => exact pure _

omit [Admits F] in
theorem returnPre (side : Side) (post : Constr) : Prompt F (Walk.returnPre side post) :=
  (env side).bind fun _ => pure _

theorem forceJump (side : Side) (post : Constr) (j : Jump) (target : String) (taken : Bool) :
    Prompt Fault.Proper (Walk.forceJump side post j target taken) :=
  (condition side j.cond).bind fun _ => ite
    ((targetPre ..).bind fun _ => (mkGoal ..).bind fun _ => mkClause ..)
    ((mkGoal ..).bind fun _ => mkClause ..)

end Prompt

end Walk

end Precond

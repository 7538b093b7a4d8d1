import Precond.Proofs.Compare.Comparators
import Precond.Proofs.Compare.Mirror
import Precond.Proofs.Compare.Snapshot
import Precond.Proofs.Constraint.Spare
import Precond.Proofs.Env.Gives

/-! What comparators ask of a model. They are run where all variables have constants already
(`Scene.At`), so that what they give is told by the values of variables (`Scene.Still`) and of the call
flags that they ask for (`Scene.Query`). -/

namespace Precond

open IR Walk

/-- What a constraint asks of a model. -/
structure Constr.Means (c : Constr) (P : Model → Prop) : Prop where
  proper : c.Proper
  holds (m : Model) : c.holds m = true ↔ P m

/-- One constraint asks for all that others ask for. -/
theorem Constr.Means.clause {P : α → Model → Prop} {xs : List α} {goals : List Constr} (n : Nat)
    (h : List.Forall₂ (fun x c => c.Means (P x)) xs goals) :
    (Constr.clause n [] goals).Means fun m => ∀ x ∈ xs, P x m where
  proper := Constr.proper_clause nofun fun _ hc =>
    let ⟨_, _, hx⟩ := Mirror.forall₂_right h _ hc
    hx.proper
  holds m := by
    rw [Constr.holds_clause, List.all_nil, Bool.not_true, Bool.false_or, List.all_eq_true]
    constructor
    · intro hall x hx
      obtain ⟨c, hc, hP⟩ := Mirror.forall₂_left h x hx
      exact (hP.holds m).mp (hall c hc)
    · intro hall c hc
      obtain ⟨x, hx, hP⟩ := Mirror.forall₂_right h c hc
      exact (hP.holds m).mpr (hall x hx)

/-- The environments of two programs that are compared. The flags of some functions may be asked for,
and are known in the end. -/
structure Scene where
  env : Side → Env
  called : Side → Table String (Term .bool)
  asked : String → Prop

namespace Scene

variable (S : Scene)

/-- Up to new names and flags of functions the environments are those of the scene. -/
structure At (w : World) : Prop where
  env (side : Side) : ∃ names called, w.env side = { S.env side with names, called }
  asked : (w.env side).called.lookup f = some p → S.asked f

/-- The action leaves the environments as they are, and `Q` holds of what it gives. -/
structure Still (Q : α → Prop) (x : Walk α) : Prop where
  run : S.At w → x w = .ok a w₁ → (∀ side, w₁.env side = w.env side) ∧ Q a

/-- The action stays in the scene, and if its flags are those of the end, `Q` holds of what it gives. -/
structure Query (Q : α → Prop) (x : Walk α) : Prop where
  keeps : S.At w → x w = .ok a w₁ →
    S.At w₁ ∧ ∀ side, Table.Grows (w.env side).called (w₁.env side).called
  tells : S.At w → x w = .ok a w₁ → (∀ side, Table.Grows (w₁.env side).called (S.called side)) → Q a

/-- The variable has a constant in both programs. -/
def Bound (v : Var) : Prop := ∀ side, ∃ t, (S.env side).vars.lookup v = some t

/-- Variables have equal values in both programs. -/
def Equal (vars : List Var) (m : Model) : Prop :=
  ∀ v ∈ vars, (m.store (S.env .orig).vars v).Agrees (m.store (S.env .mod).vars v)

/-- A function has a flag, and what the flag is in a model is told. -/
def Flag (side : Side) (f : String) (b : Bool) (m : Model) : Prop :=
  ∃ p, (S.called side).lookup f = some p ∧ p.holds m = b

variable {S} {Q : α → Prop} {R : β → Prop} {x : Walk α} {side : Side}

namespace Still

theorem pure {a : α} (h : Q a) : S.Still Q (Pure.pure a) :=
  ⟨fun _ ha => by cases ha; exact ⟨fun _ => rfl, h⟩⟩

theorem throw (f : Fault) : S.Still Q (MonadExcept.throw f : Walk α) := ⟨fun _ ha => nomatch ha⟩

theorem keeps (h : S.Still Q x) {w w₁ : World} {a : α} (hw : S.At w) (ha : x w = .ok a w₁) :
    S.At w₁ :=
  ⟨fun side => (h.run hw ha).1 side ▸ hw.env side, fun {side} => (h.run hw ha).1 side ▸ hw.asked⟩

theorem bind {k : α → Walk β} (hx : S.Still Q x) (hk : ∀ a, Q a → S.Still R (k a)) :
    S.Still R (x >>= k) := by
  refine ⟨fun hw hb => ?_⟩
  obtain ⟨a, w₁, ha, h₁⟩ := bind_ok hb
  obtain ⟨henv, hQ⟩ := hx.run hw ha
  obtain ⟨henv₁, hR⟩ := (hk a hQ).run (hx.keeps hw ha) h₁
  exact ⟨fun side => (henv₁ side).trans (henv side), hR⟩

theorem mono {Q' : α → Prop} (h : S.Still Q x) (hQ : ∀ a, Q a → Q' a) : S.Still Q' x :=
  ⟨fun hw ha => (h.run hw ha).imp_right (hQ _)⟩

theorem mapM {Q : β → α → Prop} {xs : List β} {f : β → Walk α} (h : ∀ x ∈ xs, S.Still (Q x) (f x)) :
    S.Still (List.Forall₂ Q xs) (xs.mapM f) := by
  induction xs with
  | nil => exact pure .nil
  | cons x xs ih =>
    rw [List.mapM_cons]
    exact (h x List.mem_cons_self).bind fun a ha =>
      (ih fun y hy => h y (List.mem_cons_of_mem x hy)).bind fun as has => pure (.cons ha has)

theorem env (side : Side) :
    S.Still (fun e => ∃ names called, e = { S.env side with names, called }) (Walk.env side) := by
  refine ⟨fun hw ha => ?_⟩
  obtain ⟨rfl, rfl⟩ := env_ok ha
  obtain ⟨names, called, he⟩ := hw.env side
  exact ⟨fun _ => rfl, names, called, he⟩

theorem lift (y : Except Fault α) : S.Still (fun a => y = .ok a) (liftM y : Walk α) := by
  refine ⟨fun _ ha => ?_⟩
  obtain ⟨h, rfl⟩ := ofExcept_ok ha
  exact ⟨fun _ => rfl, h⟩

/-- A change of one environment that leaves it as it is. -/
theorem on {act : EnvM α} (h : ∀ names called a e,
    act { S.env side with names, called } = .ok a e → e = { S.env side with names, called } ∧ Q a) :
    S.Still Q (Walk.on side act) := by
  refine ⟨fun {w _ _} hw ha => ?_⟩
  obtain ⟨e, he, rfl⟩ := on_ok ha
  obtain ⟨names, called, henv⟩ := hw.env side
  rw [henv] at he
  obtain ⟨rfl, hQ⟩ := h _ _ _ _ he
  refine ⟨fun side' => ?_, hQ⟩
  by_cases hs : side' = side
  · rw [hs, World.env_setEnv, henv]
  · rw [World.env_setEnv_of_ne _ _ _ hs]

theorem mkVar {v : Var} {t : SomeTerm} (h : (S.env side).vars.lookup v = some t) :
    S.Still (· = t) (Walk.on side (Env.mkVar v)) := on fun names called a e he => by
  have hv := Env.mkVar_of_lookup (e := { S.env side with names, called }) h
  cases hv.symm.trans he
  exact ⟨rfl, rfl⟩

theorem mkGoal (name : String) (p : Term .bool) (tid : Option String) :
    S.Still (·.Means (p.holds · = true)) (Walk.mkGoal name p tid) := by
  refine ⟨fun _ ha => ?_⟩
  obtain ⟨rfl, rfl⟩ := mkGoal_ok ha
  exact ⟨fun side => by cases side <;> rfl, Constr.proper_goal _ _ _ _, fun m => Iff.rfl⟩

theorem mkClause (goals : List Constr) :
    S.Still (fun c => ∃ n, c = .clause n [] goals) (Walk.mkClause [] goals) := by
  refine ⟨fun _ ha => ?_⟩
  obtain ⟨rfl, rfl⟩ := mkClause_ok ha
  exact ⟨fun side => by cases side <;> rfl, _, rfl⟩

theorem equate (name : String) (x y : SomeTerm) :
    S.Still (·.Means fun m => (x.value m).Agrees (y.value m)) (Walk.equate name x y) := by
  refine ⟨fun _ ha => ?_⟩
  obtain ⟨p, rfl, rfl, hp⟩ := equate_ok ha
  exact ⟨fun side => by cases side <;> rfl, Constr.proper_goal _ _ _ _, hp⟩

theorem conjoin (cs : List Constr) : S.Still (fun c => ((∀ d ∈ cs, d.Proper) → c.Proper) ∧
    ∀ m, c.holds m = true ↔ ∀ d ∈ cs, d.holds m = true) (Walk.conjoin cs) := by
  unfold Walk.conjoin
  split
  · exact pure ⟨fun h => h _ (List.mem_singleton_self _), fun m => by simp⟩
  · refine (mkClause cs).mono ?_
    rintro _ ⟨n, rfl⟩
    refine ⟨Constr.proper_clause nofun, fun m => ?_⟩
    rw [Constr.holds_clause, List.all_nil, Bool.not_true, Bool.false_or, List.all_eq_true]

/-- Bound variables are compared. -/
theorem equalVars {vars : List Var} (hb : ∀ v ∈ vars, S.Bound v) (label : String) :
    S.Still (·.Means (S.Equal vars)) (PairRel.equalVars vars label) := by
  have hmem (v : Var) : v ∈ sortByName vars ↔ v ∈ vars := List.mem_mergeSort
  refine (mapM (Q := fun v c => c.Means fun m =>
    (m.store (S.env .orig).vars v).Agrees (m.store (S.env .mod).vars v)) fun v hv => ?_).bind
      fun goals hgoals => (mkClause goals).mono ?_
  · obtain ⟨x, hx⟩ := hb v ((hmem v).mp hv) .orig
    obtain ⟨y, hy⟩ := hb v ((hmem v).mp hv) .mod
    refine (mkVar hx).bind fun x' hx' => (mkVar hy).bind fun y' hy' => ?_
    subst hx' hy'
    simp only [Model.store_of_lookup hx, Model.store_of_lookup hy]
    exact equate _ x' y'
  · rintro c ⟨n, rfl⟩
    have hc := Constr.Means.clause n hgoals
    refine ⟨hc.proper, fun m => (hc.holds m).trans ?_⟩
    simp only [Equal, hmem]

end Still

namespace Query

theorem still (h : S.Still Q x) : S.Query Q x where
  keeps hw ha := ⟨h.keeps hw ha, fun side => (h.run hw ha).1 side ▸ .refl _⟩
  tells hw ha _ := (h.run hw ha).2

theorem after {k : α → Walk β} (hx : S.Still Q x) (hk : ∀ a, Q a → S.Query R (k a)) :
    S.Query R (x >>= k) := by
  refine ⟨fun hw hb => ?_, fun hw hb hflags => ?_⟩
  all_goals obtain ⟨a, w₁, ha, h₁⟩ := bind_ok hb
  · obtain ⟨hw₂, hgrows⟩ := (hk a (hx.run hw ha).2).keeps (hx.keeps hw ha) h₁
    exact ⟨hw₂, fun side => (hx.run hw ha).1 side ▸ hgrows side⟩
  · exact (hk a (hx.run hw ha).2).tells (hx.keeps hw ha) h₁ hflags

/-- What is told of the first action is known where all is done. -/
theorem bind {k : α → Walk β} (hx : S.Query Q x) (hk : ∀ a, S.Query (fun b => Q a → R b) (k a)) :
    S.Query R (x >>= k) := by
  refine ⟨fun hw hb => ?_, fun hw hb hflags => ?_⟩
  all_goals
    obtain ⟨a, w₁, ha, h₁⟩ := bind_ok hb
    obtain ⟨hw₁, hgrows₁⟩ := hx.keeps hw ha
    obtain ⟨hw₂, hgrows₂⟩ := (hk a).keeps hw₁ h₁
  · exact ⟨hw₂, fun side => (hgrows₁ side).trans (hgrows₂ side)⟩
  · exact (hk a).tells hw₁ h₁ hflags (hx.tells hw ha fun side => (hgrows₂ side).trans (hflags side))

theorem mono {Q' : α → Prop} (h : S.Query Q x) (hQ : ∀ a, Q a → Q' a) : S.Query Q' x :=
  ⟨h.keeps, fun hw ha hflags => hQ _ (h.tells hw ha hflags)⟩

theorem mapM {Q : β → α → Prop} {xs : List β} {f : β → Walk α} (h : ∀ x ∈ xs, S.Query (Q x) (f x)) :
    S.Query (List.Forall₂ Q xs) (xs.mapM f) := by
  induction xs with
  | nil => exact still (.pure .nil)
  | cons x xs ih =>
    rw [List.mapM_cons]
    exact (h x List.mem_cons_self).bind fun a =>
      (ih fun y hy => h y (List.mem_cons_of_mem x hy)).bind fun as =>
        still (.pure fun has ha => .cons ha has)

/-- All that can be told at once. -/
theorem all (h : S.Query Q x) : S.Query (fun a => ∀ Q', S.Query Q' x → Q' a) x :=
  ⟨h.keeps, fun hw ha hflags _ hQ => hQ.tells hw ha hflags⟩

/-- The flag of a function that may be asked for. -/
theorem getCalled {f : String} (hr : (S.env side).renames = []) (hf : S.asked f) :
    S.Query (fun p => (S.called side).lookup f = some p) (Walk.on side (Env.getCalled f)) := by
  have hrun {w w₁ : World} {p : Term .bool} (hw : S.At w)
      (ha : Walk.on side (Env.getCalled f) w = .ok p w₁) : S.At w₁ ∧
        (w₁.env side).called.lookup f = some p ∧
        ∀ side, Table.Grows (w.env side).called (w₁.env side).called := by
    obtain ⟨e, he, rfl⟩ := on_ok ha
    obtain ⟨names, called, rfl, hl, hgrows, hkeys⟩ := Env.getCalled_ok he
    obtain ⟨names', called', henv⟩ := hw.env side
    have hcanonical : (w.env side).canonical f = f := by
      rw [henv, Env.canonical, hr]
      rfl
    rw [hcanonical] at hl hkeys
    have hown := World.env_setEnv w side { w.env side with names, called }
    have hother {side' : Side} (hs : side' ≠ side) :=
      World.env_setEnv_of_ne w side { w.env side with names, called } hs
    refine ⟨⟨fun side' => ?_, fun {side' g q} hg => ?_⟩, by rw [hown]; exact hl, fun side' => ?_⟩
    all_goals by_cases hs : side' = side
    · rw [hs, hown, henv]
      exact ⟨names, called, rfl⟩
    · rw [hother hs]
      exact hw.env side'
    · rw [hs, hown] at hg
      rcases hkeys g q hg with rfl | hg
      · exact hf
      · exact hw.asked hg
    · rw [hother hs] at hg
      exact hw.asked hg
    · rw [hs, hown]
      exact hgrows
    · rw [hother hs]
      exact .refl _
  exact ⟨fun hw ha => ⟨(hrun hw ha).1, (hrun hw ha).2.2⟩, fun hw ha hflags =>
    hflags side _ _ (hrun hw ha).2.1⟩

end Query

end Scene

end Precond

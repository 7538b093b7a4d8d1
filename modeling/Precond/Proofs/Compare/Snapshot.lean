import Precond.Proofs.Constraint.Spare
import Precond.Proofs.Run.Agreement
import Precond.Proofs.Walk.Builds

/-! The goals that variables have their values at entry. In a model they are true just if each
variable agrees with the constant for its value at entry (`Walk.snapshot_truth`). -/

namespace Precond

open IR

/-- In a model a variable has the value that is recalled for its entry. -/
inductive Model.RecallsAt (m : Model) (V inits : Table Var SomeTerm) (v : Var) : Prop
  | mk : V.lookup v = some t → inits.lookup v = some i → (i.value m).Agrees (t.value m) →
      m.RecallsAt V inits v

/-- In a model all variables have the values that are recalled for their entries. -/
def Model.Recalls (m : Model) (V inits : Table Var SomeTerm) (vars : List Var) : Prop :=
  ∀ v ∈ vars, m.RecallsAt V inits v

namespace Walk

variable {given K : Constr → Prop} {w w' : World} {side : Side} {c : Constr} {vars : List Var}
  {gs : List Constr}

theorem equate_ok {name : String} {x y : SomeTerm} (h : equate name x y w = .ok c w') :
    ∃ p, c = .goal w.nodes name p none ∧ w' = { w with nodes := w.nodes + 1 } ∧
      ∀ m, p.holds m = true ↔ (x.value m).Agrees (y.value m) := by
  obtain ⟨p, w₁, hp, h₁⟩ := bind_ok h
  obtain ⟨hp', rfl⟩ := ofExcept_ok hp
  obtain ⟨rfl, rfl⟩ := mkGoal_ok h₁
  obtain ⟨s, a⟩ := x
  obtain ⟨b, hb, hp⟩ := bind_eq_ok hp'
  cases hp
  refine ⟨_, rfl, rfl, fun m => ?_⟩
  rw [SomeTerm.as_eq_ok hb, Spine.holds_eq]
  refine ⟨.mk, fun hagree => ?_⟩
  cases hagree
  assumption

theorem equate_truth {name : String} {x y : SomeTerm} (h : equate name x y w = .ok c w')
    (m : Model) : c.truth m ↔ (x.value m).Agrees (y.value m) := by
  obtain ⟨p, rfl, -, hp⟩ := equate_ok h
  rw [Constr.truth_goal, hp]

theorem mkInitVar_ok {v : Var} {t : SomeTerm} (h : on side (Env.mkInitVar v) w = .ok t w') :
    (w'.env side).inits.lookup v = some t := by
  obtain ⟨e, he, rfl⟩ := on_ok h
  rw [World.env_setEnv]
  exact Env.mkInitVar_lookup he

/-- The goal of one variable of a snapshot. -/
def entryGoal (side : Side) (v : Var) : Walk Constr := do
  let t ← on side (Env.mkVar v)
  let init ← on side (Env.mkInitVar v)
  equate (init.toText ++ " = " ++ t.toText) init t

theorem snapshot_eq (side : Side) (vars : List Var) :
    snapshot side vars = (sortByName vars).mapM (entryGoal side) := rfl

theorem builds_entryGoal (given : Constr → Prop) (side : Side) (v : Var) :
    Builds given (entryGoal side v) fun c => [c] :=
  .skip (.on (.mkVar v) _) fun _ => .skip (.on (.mkInitVar v) _) fun _ => .equate ..

theorem builds_snapshot (given : Constr → Prop) (side : Side) (vars : List Var) :
    Builds given (snapshot side vars) id :=
  .nodes fun v _ => builds_entryGoal given side v

theorem entryGoal_truth {v : Var} (h : entryGoal side v w = .ok c w') {V inits : Table Var SomeTerm}
    (hV : Table.Grows (w'.env side).vars V) (hI : Table.Grows (w'.env side).inits inits)
    (m : Model) : c.truth m ↔ m.RecallsAt V inits v := by
  obtain ⟨t, w₁, ht, h₁⟩ := bind_ok h
  obtain ⟨i, w₂, hi, h₂⟩ := bind_ok h₁
  obtain ⟨-, -, hv⟩ := mkVar_ok False (fun _ => False) ht
  have hl₂ := (Builds.on (.mkInitVar v) side).later hi side
  have hl₃ := (Builds.equate ..).later h₂ side
  have hv' := hV _ _ (hl₃.vars _ _ (hl₂.vars _ _ hv))
  have hi' := hI _ _ (hl₃.inits _ _ (mkInitVar_ok hi))
  rw [equate_truth h₂ m]
  refine ⟨.mk hv' hi', ?_⟩
  rintro ⟨ht', hi'', hagree⟩
  cases hv'.symm.trans ht'
  cases hi'.symm.trans hi''
  exact hagree

/-- The goals of a snapshot say that the variables have their values at entry. -/
theorem snapshot_truth (h : snapshot side vars w = .ok gs w') {V inits : Table Var SomeTerm}
    (hV : Table.Grows (w'.env side).vars V) (hI : Table.Grows (w'.env side).inits inits)
    (m : Model) : (∀ c ∈ gs, c.truth m) ↔ m.Recalls V inits vars := by
  have hperm : ∀ v, v ∈ sortByName vars ↔ v ∈ vars := fun v => (List.mergeSort_perm ..).mem_iff
  simp only [Model.Recalls, ← hperm]
  rw [snapshot_eq] at h
  generalize sortByName vars = vs at h
  induction vs generalizing w gs with
  | nil =>
    cases h
    exact ⟨nofun, nofun⟩
  | cons v vs ih =>
    rw [List.mapM_cons] at h
    obtain ⟨c, w₁, hc, h₁⟩ := bind_ok h
    obtain ⟨cs, w₂, hcs, h₂⟩ := bind_ok h₁
    cases h₂
    have hl := (Builds.nodes fun v _ => builds_entryGoal _ side v).later hcs side
    rw [List.forall_mem_cons, List.forall_mem_cons]
    exact and_congr (entryGoal_truth hc (hl.vars.trans hV) (hl.inits.trans hI) m) (ih hcs)

/-- Variables of one program have got constants, and nothing else has changed. -/
structure Binds (side : Side) (vars : List Var) (w w' : World) : Prop where
  env : ∃ names vars inits, w'.env side = { w.env side with names, vars, inits }
  bound : (w'.env side).vars.lookup u ≠ none ↔ u ∈ vars ∨ (w.env side).vars.lookup u ≠ none
  other : side' ≠ side → w'.env side' = w.env side'

theorem mkVar_binds {v : Var} {t : SomeTerm} (h : on side (Env.mkVar v) w = .ok t w') :
    Binds side [v] w w' := by
  obtain ⟨e, he, rfl⟩ := on_ok h
  refine ⟨?_, fun {u} => ?_, fun hs => World.env_setEnv_of_ne _ _ _ hs⟩ <;> rw [World.env_setEnv]
  all_goals obtain ⟨hv, rfl⟩ | ⟨n, s, e₁, hnone, hname, hsort, rfl, rfl⟩ := Env.mkVar_ok he
  · exact ⟨_, _, _, rfl⟩
  · obtain ⟨full, names, hfull⟩ := Env.constName_eq v.name (w.env side)
    cases hfull.symm.trans hname
    exact ⟨_, _, _, rfl⟩
  · refine ⟨.inr, fun hu => hu.elim (fun hu => ?_) id⟩
    rw [List.mem_singleton.mp hu, hv]
    exact Option.some_ne_none _
  · obtain ⟨full, names, hfull⟩ := Env.constName_eq v.name (w.env side)
    cases hfull.symm.trans hname
    by_cases huv : u = v
    · simp [huv, Table.lookup_put_self]
    · simp [Table.lookup_put_of_ne _ _ huv, huv]

theorem mkInitVar_binds {v : Var} {t : SomeTerm} (h : on side (Env.mkInitVar v) w = .ok t w') :
    Binds side [] w w' := by
  obtain ⟨e, he, rfl⟩ := on_ok h
  obtain ⟨names, inits, rfl⟩ : ∃ names inits, e = { w.env side with names, inits } := by
    have h₁ := EnvM.get_ok he
    cases hv : (w.env side).inits.lookup v with
    | some i =>
      rw [hv] at h₁
      cases h₁
      exact ⟨_, _, rfl⟩
    | none =>
      rw [hv] at h₁
      obtain ⟨n, e₁, hn, h₂⟩ := EnvM.bind_ok h₁
      obtain ⟨full, names, hfull⟩ := Env.constName_eq (initFront ++ v.name) (w.env side)
      cases hfull.symm.trans hn
      obtain ⟨u, e₂, hu, h₃⟩ := EnvM.bind_ok h₂
      obtain ⟨rfl, -⟩ := Env.const_ok hu
      cases h₃
      exact ⟨_, _, rfl⟩
  refine ⟨?_, fun {u} => ?_, fun hs => World.env_setEnv_of_ne _ _ _ hs⟩ <;> rw [World.env_setEnv]
  · exact ⟨_, _, _, rfl⟩
  · simp

theorem Binds.trans {us vs : List Var} {w₁ w₂ : World} (h₁ : Binds side us w w₁)
    (h₂ : Binds side vs w₁ w₂) : Binds side (us ++ vs) w w₂ where
  env := by
    obtain ⟨names, vars, inits, he⟩ := h₁.env
    obtain ⟨names', vars', inits', he'⟩ := h₂.env
    exact ⟨names', vars', inits', by rw [he', he]⟩
  bound {u} := by
    rw [h₂.bound, h₁.bound, List.mem_append]
    tauto
  other hs := (h₂.other hs).trans (h₁.other hs)

/-- A snapshot binds its variables and no others, and gives goals. -/
theorem snapshot_ok (h : snapshot side vars w = .ok gs w') :
    Binds side vars w w' ∧ ∀ c ∈ gs, c.Proper := by
  have hperm : ∀ v, v ∈ sortByName vars ↔ v ∈ vars := fun v => (List.mergeSort_perm ..).mem_iff
  suffices hall : Binds side (sortByName vars) w w' ∧ ∀ c ∈ gs, c.Proper from
    ⟨⟨hall.1.env, fun {u} => by rw [hall.1.bound, hperm], hall.1.other⟩, hall.2⟩
  rw [snapshot_eq] at h
  generalize sortByName vars = vs at h
  induction vs generalizing w gs with
  | nil =>
    cases h
    exact ⟨⟨⟨_, _, _, rfl⟩, by simp, fun _ => rfl⟩, nofun⟩
  | cons v vs ih =>
    rw [List.mapM_cons] at h
    obtain ⟨c, w₁, hc, h₁⟩ := bind_ok h
    obtain ⟨cs, w₂, hcs, h₂⟩ := bind_ok h₁
    cases h₂
    obtain ⟨t, w₃, ht, h₃⟩ := bind_ok hc
    obtain ⟨i, w₄, hi, h₄⟩ := bind_ok h₃
    obtain ⟨p, rfl, rfl, -⟩ := equate_ok h₄
    have hnodes : Binds side [] w₄ { w₄ with nodes := w₄.nodes + 1 } := by
      have henv (side : Side) : World.env { w₄ with nodes := w₄.nodes + 1 } side = w₄.env side := by
        cases side <;> rfl
      exact ⟨⟨_, _, _, henv side⟩, by simp [henv], fun _ => henv _⟩
    obtain ⟨hbinds, hproper⟩ := ih hcs
    refine ⟨(mkVar_binds ht).trans ((mkInitVar_binds hi).trans (hnodes.trans hbinds)), ?_⟩
    exact List.forall_mem_cons.mpr ⟨Constr.proper_goal _ _ _ _, hproper⟩

/-! ### Success -/

theorem equate_succeeds {name : String} {x y : SomeTerm} (h : y.1 = x.1) (w : World) :
    equate name x y w = .ok (.goal w.nodes name (Term.eq x.2 (h ▸ y.2)) none)
      { w with nodes := w.nodes + 1 } := by
  obtain ⟨s, x⟩ := x
  obtain ⟨s', y⟩ := y
  cases (h : s' = s)
  have has : SomeTerm.eq ⟨s, x⟩ ⟨s, y⟩ = .ok (Term.eq x y) := by
    rw [SomeTerm.eq, SomeTerm.as, dif_pos rfl]
    rfl
  rw [equate, has]
  rfl

end Walk

end Precond

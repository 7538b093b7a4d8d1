import Precond.Proofs.Walk.Monad
import Precond.Proofs.Compare.Snapshot

/-! How actions end that are made before a subroutine is walked. Constants are of the sorts of their
types, so that those of one variable can be compared; a fault can only come from a type that has no
sort. -/

namespace Precond

open IR

namespace Env

variable {e e' : Env} {v : Var} {f : Fault} {t : SomeTerm}

/-- Only a type without a sort makes a variable fail. -/
theorem mkVar_fails (h : mkVar v e = .error f e') : v.type.sort = .error f := by
  cases hv : e.vars.lookup v with
  | some t =>
    rw [mkVar_of_lookup hv] at h
    cases h
  | none =>
    obtain ⟨full, names, hname⟩ := constName_eq v.name e
    rw [mkVar_of_none hv hname] at h
    cases hs : v.type.sort <;> rw [hs] at h <;> cases h
    rfl

theorem mkInitVar_fails (h : mkInitVar v e = .error f e') : v.type.sort = .error f := by
  cases hv : e.inits.lookup v with
  | some t =>
    rw [mkInitVar_of_lookup hv] at h
    cases h
  | none =>
    obtain ⟨full, names, hname⟩ := constName_eq (initFront ++ v.name) e
    rw [mkInitVar_of_none hv hname] at h
    cases hs : v.type.sort <;> rw [hs] at h <;> cases h
    rfl

end Env

/-- The environments are of known architectures, and all their constants are ones that they have
given. -/
structure Walk.Sound (a : Side → Arch) (w : World) : Prop where
  arch (side : Side) : (w.env side).arch = a side
  tidy (side : Side) : (w.env side).Tidy

namespace Walk

variable {a : Side → Arch} {w w' : World} {side : Side} {F : Fault → Prop} {v : Var}

theorem Sound.later (h : Sound a w) (hl : ∀ side, (w.env side).Later False (w'.env side)) :
    Sound a w' :=
  ⟨fun side => (hl side).arch.trans (h.arch side), fun side => (hl side).gives.tidy (h.tidy side)⟩

theorem Sound.of_env (h : Sound a w) (hw : ∀ side, w'.env side = w.env side) : Sound a w' :=
  ⟨fun side => hw side ▸ h.arch side, fun side => hw side ▸ h.tidy side⟩

/-- If the type of a variable has no sort, that is the fault. -/
def Sortable (F : Fault → Prop) (v : Var) : Prop := ∀ f, v.type.sort = .error f → F f

namespace Outcome

/-- Actions one after the other that keep what each of them needs. -/
theorem mapM {I : World → Prop} {xs : List β} {f : β → Walk α} (hw : I w)
    (h : ∀ x ∈ xs, ∀ w, I w → Outcome (fun _ w' => I w') F (f x) w) :
    Outcome (fun _ w' => I w') F (xs.mapM f) w := by
  induction xs generalizing w with
  | nil => exact .pure hw
  | cons x xs ih =>
    rw [List.mapM_cons]
    refine .bind (h x List.mem_cons_self w hw) fun b w₁ h₁ => ?_
    refine .bind (ih h₁ fun y hy => h y (List.mem_cons_of_mem x hy)) fun bs w₂ h₂ => ?_
    exact .pure h₂

theorem mkVar (hw : Sound a w) (hv : Sortable F v) :
    Outcome (fun t w' => v.type.sort = .ok t.1 ∧ Sound a w') F (Walk.on side (Env.mkVar v)) w := by
  have hend {t : SomeTerm} {e : Env} (he : Env.mkVar v (w.env side) = .ok t e) :
      Sound a (w.setEnv side e) := by
    have hon : Walk.on side (Env.mkVar v) w = .ok t (w.setEnv side e) := by rw [Walk.on, he]
    exact hw.later ((Builds.on (.mkVar v) side).later hon)
  refine .on (fun t e he => ⟨?_, hend he⟩) fun f e he => ?_
  · obtain ⟨hlook, -⟩ | ⟨n, s, _, _, _, hs, ht, _⟩ := Env.mkVar_ok he
    · obtain ⟨_, s, rfl, hs, -⟩ := (hw.tidy side).vars hlook
      exact hs
    · rw [ht]
      exact hs
  · exact hv f (Env.mkVar_fails he)

theorem mkInitVar (hw : Sound a w) (hv : Sortable F v) :
    Outcome (fun t w' => v.type.sort = .ok t.1 ∧ Sound a w') F (Walk.on side (Env.mkInitVar v)) w := by
  refine .on (fun t e he => ?_) fun f e he => hv f (Env.mkInitVar_fails he)
  have hon : Walk.on side (Env.mkInitVar v) w = .ok t (w.setEnv side e) := by rw [Walk.on, he]
  have h := hw.later ((Builds.on (.mkInitVar v) side).later hon)
  obtain ⟨_, s, rfl, hs, -⟩ := (h.tidy side).inits (mkInitVar_ok hon)
  exact ⟨hs, h⟩

theorem mkGoal (hw : Sound a w) (name : String) (value : Term .bool) (tid : Option String) :
    Outcome (fun _ w' => Sound a w') F (Walk.mkGoal name value tid) w :=
  hw.of_env fun side => by cases side <;> rfl

theorem mkClause (hw : Sound a w) (hyps goals : List Constr) :
    Outcome (fun _ w' => Sound a w') F (Walk.mkClause hyps goals) w :=
  hw.of_env fun side => by cases side <;> rfl

theorem conjoin (hw : Sound a w) (cs : List Constr) :
    Outcome (fun _ w' => Sound a w') F (Walk.conjoin cs) w := by
  unfold Walk.conjoin
  split
  · exact .pure hw
  · exact .mkClause hw _ _

theorem equate (hw : Sound a w) (name : String) {x y : SomeTerm} (h : y.1 = x.1) :
    Outcome (fun _ w' => Sound a w') F (Walk.equate name x y) w := by
  rw [Outcome, equate_succeeds h]
  exact hw.of_env fun side => by cases side <;> rfl

theorem entryGoal (hw : Sound a w) (hv : Sortable F v) :
    Outcome (fun _ w' => Sound a w') F (Walk.entryGoal side v) w := by
  refine .bind (.mkVar hw hv) fun t w₁ ⟨ht, h₁⟩ => .bind (.mkInitVar h₁ hv) fun i w₂ ⟨hi, h₂⟩ => ?_
  exact .equate h₂ _ (Except.ok.inj (ht.symm.trans hi))

/-- The values at entry of variables whose types have sorts. -/
theorem snapshot (hw : Sound a w) {vars : List Var} (hv : ∀ v ∈ vars, Sortable F v) :
    Outcome (fun _ w' => Sound a w') F (Walk.snapshot side vars) w := by
  rw [snapshot_eq]
  exact .mapM hw fun v hm w h => .entryGoal h (hv v (List.mem_mergeSort.mp hm))

/-- The stack pointer is a word. -/
theorem spRange (hw : Sound a w) (hsp : ∃ n, (a side).sp.type.sort = .ok (.bv n)) :
    Outcome (fun _ w' => Sound a w') F (Walk.on side Env.spRange) w := by
  obtain ⟨n, hn⟩ := hsp
  have hv : Sortable (fun _ => False) (w.env side).arch.sp := fun f hf => by
    rw [hw.arch, hn] at hf
    cases hf
  obtain ⟨⟨s, x⟩, w₁, hx, hs, h₁⟩ := (Outcome.mkVar hw hv).succeeds fun _ => id
  obtain rfl : TSort.bv n = s := by
    rw [hw.arch, hn] at hs
    exact Except.ok.inj hs
  obtain ⟨e, he, rfl⟩ := on_ok hx
  have hrange : Env.spRange (w.env side) = .ok (e.inStack x) e := by
    rw [Env.spRange, EnvM.get_bind, EnvM.bind_of_ok he]
    rfl
  rw [Outcome, Walk.on, hrange]
  exact h₁

theorem stackPointerGoal (hw : Sound a w) (hsp : ∃ n, (a side).sp.type.sort = .ok (.bv n)) :
    Outcome (fun _ w' => Sound a w') F (Walk.stackPointerGoal side) w := by
  refine .bind (P := fun e w' => w' = w ∧ e.arch = a side) (.env ⟨rfl, hw.arch side⟩) ?_
  rintro e _ ⟨rfl, he⟩
  have hv : Sortable F e.arch.sp := fun f hf => by
    obtain ⟨n, hn⟩ := hsp
    rw [he, hn] at hf
    cases hf
  exact .bind (.mkVar hw hv) fun t w₁ ⟨_, h₁⟩ => .bind (.spRange h₁ hsp) fun q w₂ h₂ => .mkGoal h₂ ..

end Outcome

end Walk

end Precond

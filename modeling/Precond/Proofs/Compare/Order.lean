import Precond.Proofs.Compare.Opening
import Precond.Proofs.Walk.Echo

/-! Comparators in another order. What a comparator asks for is told by the variables that both
programs have constants for already, and by flags of callees, which are the same whoever asks for them
first (`Walk.Along`). Therefore comparators in another order ask for the same
(`Comparator.Canonical.mapM_post`, `Comparator.Canonical.mapM_hyp`). -/

namespace Precond

open IR Walk

namespace World

/-- The world with another number for the next node. -/
def counting (w : World) (n : Nat) : World := { w with nodes := n }

@[simp] theorem env_counting (w : World) (n : Nat) (side : Side) :
    (w.counting n).env side = w.env side := by cases side <;> rfl

theorem setEnv_counting (w : World) (n : Nat) (side : Side) (e : Env) :
    (w.counting n).setEnv side e = (w.setEnv side e).counting n := by cases side <;> rfl

/-- Worlds that differ at most in flags of callees. -/
def Even (w v : World) : Prop :=
  ∀ side, ∃ names called, v.env side = { w.env side with names, called }

/-- The flags of callees that are known in the first world are known in the second one. -/
structure Flagged (w v : World) : Prop where
  even : w.Even v
  grows (side : Side) : Table.Grows (w.env side).called (v.env side).called

variable {w v u : World}

theorem Even.refl (w : World) : w.Even w := fun _ => ⟨_, _, rfl⟩

theorem Even.symm (h : w.Even v) : v.Even w := by
  intro side
  obtain ⟨names, called, he⟩ := h side
  exact ⟨(w.env side).names, (w.env side).called, by rw [he]⟩

theorem Even.trans (h₁ : w.Even v) (h₂ : v.Even u) : w.Even u := by
  intro side
  obtain ⟨names, called, he⟩ := h₁ side
  obtain ⟨names', called', he'⟩ := h₂ side
  exact ⟨names', called', by rw [he', he]⟩

theorem Flagged.refl (w : World) : w.Flagged w := ⟨.refl w, fun _ => .refl _⟩

theorem Flagged.trans (h₁ : w.Flagged v) (h₂ : v.Flagged u) : w.Flagged u :=
  ⟨h₁.even.trans h₂.even, fun side => (h₁.grows side).trans (h₂.grows side)⟩

/-- The world in which a program has been asked for the flag of a callee. -/
def asked (w : World) (side : Side) (name : String) : World :=
  w.setEnv side (ending (Env.getCalled name) (w.env side))

end World

theorem Env.getCalled_succeeds (name : String) (e : Env) :
    ∃ p, Env.getCalled name e = .ok p (ending (Env.getCalled name) e) := by
  cases hc : e.called.lookup (e.canonical name) with
  | some p => exact ⟨p, by rw [ending, Env.getCalled_of_lookup hc]⟩
  | none =>
    obtain ⟨full, names, h⟩ := Env.getCalled_of_none hc
    exact ⟨_, by rw [ending, h]⟩

theorem World.flagged_asked (w : World) (side : Side) (name : String) :
    w.Flagged (w.asked side name) := by
  obtain ⟨p, hp⟩ := Env.getCalled_succeeds name (w.env side)
  obtain ⟨names, called, he, -, hgrows, -⟩ := Env.getCalled_ok hp
  refine ⟨fun side' => ?_, fun side' => ?_⟩ <;> rw [World.asked, he] <;> by_cases hs : side' = side
  · subst hs
    rw [World.env_setEnv]
    exact ⟨names, called, rfl⟩
  · rw [World.env_setEnv_of_ne _ _ _ hs]
    exact ⟨_, _, rfl⟩
  · subst hs
    rw [World.env_setEnv]
    exact hgrows
  · rw [World.env_setEnv_of_ne _ _ _ hs]
    exact .refl _

/-- The flag of a callee is the same for all who ask for it. -/
theorem World.getCalled_asked {w v : World} {side : Side} {name : String}
    (hf : (w.asked side name).Flagged v) : ∃ p, Env.getCalled name (w.env side) =
      .ok p (ending (Env.getCalled name) (w.env side)) ∧
        Env.getCalled name (v.env side) = .ok p (v.env side) := by
  obtain ⟨p, hp⟩ := Env.getCalled_succeeds name (w.env side)
  refine ⟨p, hp, Env.getCalled_of_lookup (hf.grows side _ _ ?_)⟩
  obtain ⟨names, called, he, hl, -, -⟩ := Env.getCalled_ok hp
  obtain ⟨names', called', he'⟩ := hf.even side
  rw [World.asked, World.env_setEnv] at he' ⊢
  rw [he', he]
  exact hl

namespace Walk

/-- If the first action succeeds from the world `w`, it comes to the world `w₁`, and the second one
comes from `v` to `v₁` with as many new nodes, whatever numbers nodes have. -/
structure Along (w w₁ v v₁ : World) (A : α → β → Prop) (x : Walk α) (y : Walk β) : Prop where
  run : x (w.counting n) = .ok a u → ∃ k, u = w₁.counting (n + k) ∧
    ∀ n', ∃ b, y (v.counting n') = .ok b (v₁.counting (n' + k)) ∧ A a b

namespace Along

variable {w w₁ w₂ v v₁ v₂ u u₁ : World} {side : Side} {x : Walk α} {y : Walk β} {z : Walk γ}
  {A : α → β → Prop} {B : γ → δ → Prop}

theorem pure {a : α} {b : β} (h : A a b) : Along w w v v A (Pure.pure a) (Pure.pure b) :=
  ⟨fun ha => by cases ha; exact ⟨0, rfl, fun n' => ⟨b, rfl, h⟩⟩⟩

theorem throw (f : Fault) : Along w w₁ v v₁ A (MonadExcept.throw f) y := ⟨nofun⟩

theorem bind {k : α → Walk γ} {l : β → Walk δ} (hx : Along w w₁ v v₁ A x y)
    (hk : ∀ a b, A a b → Along w₁ w₂ v₁ v₂ B (k a) (l b)) :
    Along w w₂ v v₂ B (x >>= k) (y >>= l) := by
  refine ⟨fun {n c u} hc => ?_⟩
  obtain ⟨a, u₁, ha, hc⟩ := bind_ok hc
  obtain ⟨i, rfl, hy⟩ := hx.run ha
  obtain ⟨b₀, -, hA₀⟩ := hy 0
  obtain ⟨j, rfl, -⟩ := (hk a b₀ hA₀).run hc
  refine ⟨i + j, by rw [Nat.add_assoc], fun n' => ?_⟩
  obtain ⟨b, hb, hA⟩ := hy n'
  obtain ⟨j', hj, hl⟩ := (hk a b hA).run hc
  have hnodes : n + i + j = n + i + j' := congrArg World.nodes hj
  obtain ⟨d, hd, hB⟩ := hl (n' + i)
  exact ⟨d, (bind_of_ok hb).trans (by rw [hd, show j' = j by omega, Nat.add_assoc]), hB⟩

theorem mono {A' : α → β → Prop} (h : Along w w₁ v v₁ A x y) (hA : ∀ a b, A a b → A' a b) :
    Along w w₁ v v₁ A' x y := by
  refine ⟨fun hc => ?_⟩
  obtain ⟨k, rfl, hy⟩ := h.run hc
  refine ⟨k, rfl, fun n' => ?_⟩
  obtain ⟨b, hb, hab⟩ := hy n'
  exact ⟨b, hb, hA _ _ hab⟩

theorem trans {A' : β → γ → Prop} {A'' : α → γ → Prop} (h : Along w w₁ v v₁ A x y)
    (h' : Along v v₁ u u₁ A' y z) (hA : ∀ a b c, A a b → A' b c → A'' a c) :
    Along w w₁ u u₁ A'' x z := by
  refine ⟨fun {n a s} ha => ?_⟩
  obtain ⟨k, rfl, hy⟩ := h.run ha
  refine ⟨k, rfl, fun n' => ?_⟩
  obtain ⟨b, hb, hab⟩ := hy 0
  obtain ⟨j, hj, hz⟩ := h'.run hb
  have hnodes : 0 + k = 0 + j := congrArg World.nodes hj
  obtain ⟨c, hc, hbc⟩ := hz n'
  exact ⟨c, by rw [hc, show j = k by omega], hA a b c hab hbc⟩

theorem ofExcept (x : Except Fault α) : Along w w v v Eq (Walk.ofExcept x) (Walk.ofExcept x) := by
  cases x with
  | ok a => exact pure rfl
  | error f => exact throw f

/-- What is read of an environment does not depend on flags. -/
theorem env {k : Env → Walk α} {A : α → α → Prop} (hf : w.Even v)
    (hk : ∀ (e : Env) names called, k { e with names, called } = k e)
    (h : Along w w₁ v v₁ A (k (w.env side)) (k (w.env side))) :
    Along w w₁ v v₁ A (Walk.env side >>= k) (Walk.env side >>= k) := by
  refine ⟨fun {n a u} ha => ?_⟩
  have hread (w : World) (n : Nat) :
      (Walk.env side >>= k) (w.counting n) = k (w.env side) (w.counting n) := by
    rw [← World.env_counting w n side]
    rfl
  obtain ⟨names, called, he⟩ := hf side
  obtain ⟨i, rfl, hy⟩ := h.run ((hread w n).symm.trans ha)
  refine ⟨i, rfl, fun n' => ?_⟩
  rw [hread, he, hk]
  exact hy n'

/-- A change of one environment that gives the same in both worlds. -/
theorem on {act : EnvM α} {e e' : Env}
    (h : ∀ a e₁, act (w.env side) = .ok a e₁ → e₁ = e ∧ act (v.env side) = .ok a e') :
    Along w (w.setEnv side e) v (v.setEnv side e') Eq (Walk.on side act) (Walk.on side act) := by
  refine ⟨fun {n a u} ha => ?_⟩
  obtain ⟨e₁, he₁, rfl⟩ := on_ok ha
  rw [World.env_counting] at he₁
  obtain ⟨rfl, hv⟩ := h a e₁ he₁
  refine ⟨0, World.setEnv_counting .., fun n' => ⟨a, ?_, rfl⟩⟩
  rw [Walk.on, World.env_counting, hv, ← World.setEnv_counting, Nat.add_zero]

/-- A change of one environment that leaves it as it is. -/
theorem reads {act : EnvM α} (h : ∀ a e₁, act (w.env side) = .ok a e₁ →
    e₁ = w.env side ∧ act (v.env side) = .ok a (v.env side)) :
    Along w w v v Eq (Walk.on side act) (Walk.on side act) := by
  have hon := on h
  rwa [World.setEnv_env, World.setEnv_env] at hon

/-- A variable that has a constant. -/
theorem mkVar {x : Var} {t : SomeTerm} (hf : w.Even v) (h : (w.env side).vars.lookup x = some t) :
    Along w w v v Eq (Walk.on side (Env.mkVar x)) (Walk.on side (Env.mkVar x)) := by
  refine reads fun a e₁ ha => ?_
  rw [Env.mkVar_of_lookup h] at ha
  cases ha
  obtain ⟨names, called, he⟩ := hf side
  exact ⟨rfl, by rw [he]; exact Env.mkVar_of_lookup h⟩

/-- Asking for the stack range, where the stack pointer has a constant. -/
theorem spRange {t : SomeTerm} (hf : w.Even v)
    (h : (w.env side).vars.lookup (w.env side).arch.sp = some t) :
    Along w w v v Eq (Walk.on side Env.spRange) (Walk.on side Env.spRange) := by
  have hrun {e : Env} (h : e.vars.lookup e.arch.sp = some t) : Env.spRange e =
      match t.sized with
      | .ok s => .ok (e.inStack s.2) e
      | .error f => .error f e := by
    rw [Env.spRange, EnvM.get_bind]
    refine (EnvM.bind_of_ok (Env.mkVar_of_lookup h)).trans ?_
    cases t.sized <;> rfl
  refine reads fun a e₁ ha => ?_
  obtain ⟨names, called, he⟩ := hf side
  have h' : (v.env side).vars.lookup (v.env side).arch.sp = some t := by rw [he]; exact h
  rw [hrun h] at ha
  rw [hrun h']
  cases hs : t.sized with
  | error f =>
    rw [hs] at ha
    cases ha
  | ok s =>
    rw [hs] at ha
    cases ha
    refine ⟨rfl, ?_⟩
    rw [he]
    rfl

/-- The flag of a callee is asked for, and where it is known already. -/
theorem getCalled {name : String} (hf : (w.asked side name).Flagged v) :
    Along w (w.asked side name) v v Eq (Walk.on side (Env.getCalled name))
      (Walk.on side (Env.getCalled name)) := by
  obtain ⟨p, hp, hv⟩ := World.getCalled_asked hf
  have hon : Along w (w.asked side name) v (v.setEnv side (v.env side)) Eq _ _ :=
    on fun a e₁ ha => by cases hp.symm.trans ha; exact ⟨rfl, hv⟩
  rwa [World.setEnv_env] at hon

/-- Where the first action never fails, success of the second one tells of it. -/
theorem back {A' : β → α → Prop} (h : Along w w₁ v v₁ A x y)
    (hx : ∀ n, ∃ a u, x (w.counting n) = .ok a u) (hA : ∀ a b, A a b → A' b a) :
    Along v v₁ w w₁ A' y x := by
  refine ⟨fun {n b u} hb => ?_⟩
  have hone (n' : Nat) : ∃ a k, x (w.counting n') = .ok a (w₁.counting (n' + k)) ∧ A a b ∧
      u = v₁.counting (n + k) := by
    obtain ⟨a, u', ha⟩ := hx n'
    obtain ⟨k, rfl, hy⟩ := h.run ha
    obtain ⟨b', hb', hab⟩ := hy n
    cases hb.symm.trans hb'
    exact ⟨a, k, ha, hab, rfl⟩
  obtain ⟨-, k, -, -, rfl⟩ := hone 0
  refine ⟨k, rfl, fun n' => ?_⟩
  obtain ⟨a, j, ha, hab, hj⟩ := hone n'
  have hnodes : n + k = n + j := congrArg World.nodes hj
  exact ⟨a, by rw [ha, show j = k by omega], hA a b hab⟩

theorem mapM {xs : List γ} {f : γ → Walk α} {g : γ → Walk β}
    (h : ∀ x ∈ xs, Along w w v v A (f x) (g x)) :
    Along w w v v (List.Forall₂ A) (xs.mapM f) (xs.mapM g) := by
  induction xs with
  | nil => exact pure .nil
  | cons x xs ih =>
    rw [List.mapM_cons, List.mapM_cons]
    exact (h x List.mem_cons_self).bind fun a b hab =>
      (ih fun y hy => h y (List.mem_cons_of_mem x hy)).bind fun as bs has => pure (.cons hab has)

/-- From the same world both actions come to the same world. -/
theorem again {n : Nat} {a : α} {y : Walk β} (h : Along w w₁ w w₁ A x y)
    (ha : x (w.counting n) = .ok a u) :
    ∃ b k, u = w₁.counting k ∧ y (w.counting n) = .ok b u ∧ A a b := by
  obtain ⟨k, rfl, hy⟩ := h.run ha
  obtain ⟨b, hb, hab⟩ := hy n
  exact ⟨b, n + k, rfl, hb, hab⟩

/-! ### Constraints -/

theorem mkGoal (name : String) (value : Term .bool) (tid : Option String) :
    Along w w v v Constr.Echoes (Walk.mkGoal name value tid) (Walk.mkGoal name value tid) :=
  ⟨fun ha => by cases ha; exact ⟨1, rfl, fun n' => ⟨_, rfl, .goal⟩⟩⟩

theorem mkClause {hyps hyps' goals goals' : List Constr} (hh : Constr.EchoAll hyps hyps')
    (hg : Constr.EchoAll goals goals') :
    Along w w v v Constr.Echoes (Walk.mkClause hyps goals) (Walk.mkClause hyps' goals') :=
  ⟨fun ha => by cases ha; exact ⟨1, rfl, fun n' => ⟨_, rfl, .clause hh hg⟩⟩⟩

/-- All goals of a list, one after the other, as one clause. -/
theorem clause {xs : List γ} {f : γ → Walk Constr}
    (h : ∀ x ∈ xs, Along w w v v Constr.Echoes (f x) (f x)) :
    Along w w v v Constr.Echoes (xs.mapM f >>= Walk.mkClause []) (xs.mapM f >>= Walk.mkClause []) :=
  (mapM h).bind fun _ _ hgoals => mkClause (.refl []) (.of_forall₂ hgoals)

theorem conjoin {cs ds : List Constr} (h : Constr.EchoAll cs ds) :
    Along w w v v Constr.Echoes (Walk.conjoin cs) (Walk.conjoin ds) := by
  unfold Walk.conjoin
  split
  · rename_i c
    obtain ⟨d, rfl⟩ := List.length_eq_one_iff.mp h.length
    exact pure h.single
  · rename_i hcs
    split
    · rename_i d
      obtain ⟨c, rfl⟩ := List.length_eq_one_iff.mp h.length.symm
      exact absurd rfl (hcs c)
    · exact mkClause (.refl []) h

theorem equate (name : String) (x y : SomeTerm) :
    Along w w v v Constr.Echoes (Walk.equate name x y) (Walk.equate name x y) := by
  refine (ofExcept _).bind fun p q hp => ?_
  subst hp
  exact mkGoal ..

theorem formula (text : String) (decls : Smt.Decls) :
    Along w w v v Constr.Echoes (Walk.formula text decls) (Walk.formula text decls) := by
  unfold Walk.formula
  split
  · exact throw _
  · exact mkGoal ..
  · exact mkGoal ..

/-! ### Another order -/

/-- Actions that leave the world as it is come to the same in another order. -/
theorem perm {xs ys : List γ} {f : γ → Walk Constr} (hp : xs.Perm ys)
    (h : ∀ x ∈ xs, Along w w w w Constr.Echoes (f x) (f x)) :
    Along w w w w Constr.EchoAll (xs.mapM f) (ys.mapM f) := by
  induction hp with
  | nil => exact pure (.refl [])
  | cons x _ ih =>
    rw [List.mapM_cons, List.mapM_cons]
    exact (h x List.mem_cons_self).bind fun c d hcd =>
      (ih fun y hy => h y (List.mem_cons_of_mem x hy)).bind fun cs ds hcs =>
        pure (hcd.all.append hcs)
  | swap x y xs =>
    have hx := h x (List.mem_cons_of_mem y List.mem_cons_self)
    have hy := h y List.mem_cons_self
    have hxs := mapM fun z hz => h z (List.mem_cons_of_mem y (List.mem_cons_of_mem x hz))
    refine ⟨fun {n cs u} hrun => ?_⟩
    simp only [List.mapM_cons, bind_assoc, pure_bind] at hrun ⊢
    obtain ⟨d, u₁, hd, hrun⟩ := bind_ok hrun
    obtain ⟨c, u₂, hc, hrun⟩ := bind_ok hrun
    obtain ⟨es, u₃, hes, hrun⟩ := bind_ok hrun
    cases hrun
    obtain ⟨j, rfl, hy⟩ := hy.run hd
    obtain ⟨i, rfl, hx⟩ := hx.run hc
    obtain ⟨k, rfl, hxs⟩ := hxs.run hes
    refine ⟨j + i + k, by rw [Nat.add_assoc, Nat.add_assoc, Nat.add_assoc], fun n' => ?_⟩
    obtain ⟨c', hc', hcc⟩ := hx n'
    obtain ⟨d', hd', hdd⟩ := hy (n' + i)
    obtain ⟨es', hes', hee⟩ := hxs (n' + i + j)
    refine ⟨c' :: d' :: es', ?_, ?_⟩
    · rw [bind_of_ok hc', bind_of_ok hd', bind_of_ok hes',
        show n' + (j + i + k) = n' + i + j + k by omega]
      rfl
    · have hall := hcc.all.append (hdd.all.append (.of_forall₂ hee))
      exact .trans (.perm (.swap c d es)) hall
  | trans hp _ ih₁ ih₂ =>
    exact (ih₁ h).trans (ih₂ fun x hx => h x (hp.mem_iff.mpr hx)) fun _ _ _ h₁ h₂ => h₁.trans h₂

end Along

end Walk

end Precond

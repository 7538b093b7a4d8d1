import Precond.Proofs.Constraint.Formula
import Precond.Proofs.Env.Gives
import Precond.Proofs.Walk.Translate

/-! What a walk leaves as it is. A later environment has the policies and the bindings of the
earlier one (`Env.Later`), and along a walk nodes are only added (`Walk.Walked`). -/

namespace Precond

open IR

namespace Env

/-- Calls of the subroutine expand its body. -/
def Inlines (e : Env) (s : Sub) : Prop := ∃ tids, e.rule? s = some (.inline tids)

/-- A later state of an environment. `cuts` tells whether edges may have been cut in between. -/
structure Later (cuts : Prop) (e e' : Env) : Prop where
  arch : e'.arch = e.arch
  subs : e'.subs = e.subs
  reach : e'.reach = e.reach
  sideRules : e'.sideRules = e.sideRules
  unrollBound : e'.unrollBound = e.unrollBound
  vars : Table.Grows e.vars e'.vars
  inits : Table.Grows e.inits e'.inits
  gives : e.Gives e'
  inlines : e.Inlines s → e'.Inlines s
  weakenings : e'.weakenings = e.weakenings ∨ cuts

variable {cuts : Prop} {e e₁ e₂ : Env}

theorem Later.refl (cuts : Prop) (e : Env) : e.Later cuts e :=
  ⟨rfl, rfl, rfl, rfl, rfl, .refl _, .refl _, .refl _, id, .inl rfl⟩

theorem Later.trans (h₁ : e.Later cuts e₁) (h₂ : e₁.Later cuts e₂) : e.Later cuts e₂ where
  arch := h₂.arch.trans h₁.arch
  subs := h₂.subs.trans h₁.subs
  reach := h₂.reach.trans h₁.reach
  sideRules := h₂.sideRules.trans h₁.sideRules
  unrollBound := h₂.unrollBound.trans h₁.unrollBound
  vars := h₁.vars.trans h₂.vars
  inits := h₁.inits.trans h₂.inits
  gives := h₁.gives.trans h₂.gives
  inlines h := h₂.inlines (h₁.inlines h)
  weakenings := by
    rcases h₂.weakenings with h | h
    · rcases h₁.weakenings with h' | h'
      · exact .inl (h.trans h')
      · exact .inr h'
    · exact .inr h

/-- Variables are kept apart. -/
theorem Later.named (h : e.Later cuts e₁) (he : e.Named) : e₁.Named := h.gives.named he

/-- Where the walk is does not matter. -/
theorem Later.of_frame (cuts : Prop) (e : Env) (frame : Frame) (inlining : List String)
    (attached : Bool) : e.Later cuts { e with frame, inlining, attached } where
  arch := rfl
  subs := rfl
  reach := rfl
  sideRules := rfl
  unrollBound := rfl
  vars := .refl _
  inits := .refl _
  gives := .of_eq rfl rfl rfl rfl rfl rfl
  inlines h := h
  weakenings := .inl rfl

theorem Later.mkVar (cuts : Prop) {v : Var} {t : SomeTerm} (h : Env.mkVar v e = .ok t e₁) :
    e.Later cuts e₁ ∧ e₁.vars.lookup v = some t ∧ e₁.frame = e.frame ∧
      e₁.inlining = e.inlining := by
  have hgives : e.Gives e₁ := ending_of_ok h ▸ Gives.mkVar v e
  obtain ⟨hv, rfl⟩ | ⟨n, s, e₂, hnone, hname, hsort, rfl, rfl⟩ := mkVar_ok h
  · exact ⟨.refl .., hv, rfl, rfl⟩
  obtain ⟨-, -, rfl⟩ | ⟨-, -, rfl⟩ := constName_ok hname
  all_goals
    exact ⟨⟨rfl, rfl, rfl, rfl, rfl, Table.grows_put hnone _, .refl _, hgives, id, .inl rfl⟩,
      Table.lookup_put_self .., rfl, rfl⟩

theorem Later.handler (cuts : Prop) {s : Sub} {h : Handler} (hi : e.Inlines s)
    (hh : Env.handler s e = .ok h e₁) :
    e.Later cuts e₁ ∧ (∃ tids, h.rule = .inline tids) ∧ e₁.frame = e.frame ∧
      e₁.inlining = e.inlining := by
  obtain ⟨tids, hr⟩ := hi
  obtain ⟨hrule, rfl | ⟨hnone, rfl⟩⟩ := handler_ok hh
  · exact ⟨.refl .., ⟨tids, Option.some.inj (hrule.symm.trans hr)⟩, rfl, rfl⟩
  have ht : h.rule = .inline tids := Option.some.inj (hrule.symm.trans hr)
  refine ⟨⟨rfl, rfl, rfl, rfl, rfl, .refl _, .refl _, .of_eq rfl rfl rfl rfl rfl rfl,
    fun {s'} hi' => ?_, .inl rfl⟩, ⟨tids, ht⟩, rfl, rfl⟩
  obtain ⟨tids', hr'⟩ := hi'
  rw [Inlines]
  unfold rule? at hr' ⊢
  by_cases hs : s'.tid = s.tid
  · rw [hs, Table.lookup_put_self]
    exact ⟨tids, congrArg some ht⟩
  · rw [Table.lookup_put_of_ne _ _ hs]
    exact ⟨tids', hr'⟩

end Env

namespace Walk

/-- A walk on one side, along which nodes are added. -/
structure Walked (side : Side) (cuts : Prop) (K K' : Constr → Prop) (w w' : World) : Prop where
  grows : K c → K' c
  fresh : K' c → K c ∨ w.nodes ≤ c.id
  nodes : w.nodes ≤ w'.nodes
  ledger : Constr.Ledger K w.nodes → Constr.Ledger K' w'.nodes
  later : (w.env side).Later cuts (w'.env side)
  other : side' ≠ side → w'.env side' = w.env side'

/-- The place in the program is the same. -/
structure Stays (side : Side) (w w' : World) : Prop where
  frame : (w'.env side).frame = (w.env side).frame
  inlining : (w'.env side).inlining = (w.env side).inlining

variable {side : Side} {cuts : Prop} {K K₁ K₂ : Constr → Prop} {w w₁ w₂ : World}

theorem Walked.refl (side : Side) (cuts : Prop) (K : Constr → Prop) (w : World) :
    Walked side cuts K K w w := ⟨id, .inl, Nat.le_refl _, id, .refl .., fun _ => rfl⟩

theorem Walked.trans (h₁ : Walked side cuts K K₁ w w₁) (h₂ : Walked side cuts K₁ K₂ w₁ w₂) :
    Walked side cuts K K₂ w w₂ where
  grows h := h₂.grows (h₁.grows h)
  fresh h := (h₂.fresh h).elim h₁.fresh fun hn => .inr (h₁.nodes.trans hn)
  nodes := h₁.nodes.trans h₂.nodes
  ledger h := h₂.ledger (h₁.ledger h)
  later := h₁.later.trans h₂.later
  other hs := (h₂.other hs).trans (h₁.other hs)

theorem Stays.refl (side : Side) (w : World) : Stays side w w := ⟨rfl, rfl⟩

theorem Stays.trans (h₁ : Stays side w w₁) (h₂ : Stays side w₁ w₂) : Stays side w w₂ :=
  ⟨h₂.frame.trans h₁.frame, h₂.inlining.trans h₁.inlining⟩

/-- A change of one environment. -/
theorem Walked.setEnv {e : Env} (h : (w.env side).Later cuts e) :
    Walked side cuts K K w (w.setEnv side e) where
  grows := id
  fresh := .inl
  nodes := by rw [World.nodes_setEnv]
  ledger := by rw [World.nodes_setEnv]; exact id
  later := by rw [World.env_setEnv]; exact h
  other hs := World.env_setEnv_of_ne _ _ _ hs

theorem Walked.drawn (cuts : Prop) (K : Constr → Prop) (h : w.Drawn side w₁) :
    Walked side cuts K K w w₁ ∧ Stays side w w₁ := by
  obtain ⟨names, he, hs, hn⟩ := h.env
  refine ⟨⟨id, .inl, by rw [h.nodes], by rw [h.nodes]; exact id, ?_, h.other⟩, by rw [he],
    by rw [he]⟩
  rw [he]
  exact ⟨rfl, rfl, rfl, rfl, rfl, .refl _, .refl _, .drawn hs hn, id, .inl rfl⟩

/-- A new node. -/
theorem Walked.node (side : Side) (cuts : Prop) (K : Constr → Prop) {c : Constr}
    (hid : c.id = w.nodes) (hc : ∀ d ∈ c.children, K d)
    (hf : Constr.Ledger K w.nodes → c.Formal) :
    Walked side cuts K (fun d => K d ∨ d = c) w { w with nodes := w.nodes + 1 } ∧
      Stays side w { w with nodes := w.nodes + 1 } := by
  have henv : ∀ s, World.env { w with nodes := w.nodes + 1 } s = w.env s := by
    rintro ⟨⟩ <;> rfl
  refine ⟨⟨.inl, fun hd => hd.imp_right fun hd => ?_, Nat.le_succ _,
    fun hK => hK.add hid (hf hK) hc, ?_, fun _ => henv _⟩, ?_, ?_⟩
  · rw [hd, hid]
  · rw [henv]
    exact .refl ..
  · rw [henv]
  · rw [henv]

/-- A change of one environment that makes it a later one. -/
theorem modifyEnv_later {f : Env → Env} (hf : ∀ e : Env, e.Later cuts (f e)) {u : Unit}
    (h : modifyEnv side f w = .ok u w₁) :
    (∀ K, Walked side cuts K K w w₁) ∧ w₁.env side = f (w.env side) := by
  obtain rfl := modifyEnv_ok h
  exact ⟨fun K => .setEnv (hf _), World.env_setEnv ..⟩

theorem restoring_later {f : Env → Env} (hf : ∀ e : Env, e.Later cuts (f e)) {act : Walk α} {a : α}
    (h : restoring side f act w = .ok a w₂) :
    ∃ w₁, act w = .ok a w₁ ∧ (∀ K, Walked side cuts K K w₁ w₂) ∧
      w₂.env side = f (w₁.env side) := by
  obtain ⟨w₁, ha, rfl⟩ := restoring_ok h
  exact ⟨w₁, ha, fun K => .setEnv (hf _), World.env_setEnv ..⟩

theorem mkVar_ok (cuts : Prop) (K : Constr → Prop) {v : Var} {t : SomeTerm}
    (h : on side (Env.mkVar v) w = .ok t w₁) :
    Walked side cuts K K w w₁ ∧ Stays side w w₁ ∧ (w₁.env side).vars.lookup v = some t := by
  obtain ⟨e, he, rfl⟩ := on_ok h
  obtain ⟨hl, hv, hf, hi⟩ := Env.Later.mkVar cuts he
  exact ⟨.setEnv hl, ⟨by rw [World.env_setEnv, hf], by rw [World.env_setEnv, hi]⟩,
    by rw [World.env_setEnv]; exact hv⟩

theorem handler_ok {s : Sub} {h : Handler} (hi : (w.env side).Inlines s)
    (hh : on side (Env.handler s) w = .ok h w₁) :
    Walked side cuts K K w w₁ ∧ Stays side w w₁ ∧ ∃ tids, h.rule = .inline tids := by
  obtain ⟨e, he, rfl⟩ := on_ok hh
  obtain ⟨hl, hr, hf, hi⟩ := Env.Later.handler cuts hi he
  exact ⟨.setEnv hl, ⟨by rw [World.env_setEnv, hf], by rw [World.env_setEnv, hi]⟩, hr⟩

end Walk

end Precond

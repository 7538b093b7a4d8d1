import Precond.Proofs.Walk.Later
import Precond.Walk.Formula
import Precond.Walk.Inputs

/-! Actions that build constraints from given ones. They read both programs and may ask for
variables, but they do not walk: the environments keep their policies and where they are, and what
is built is new or given (`Walk.Builds`). -/

namespace Precond

open IR

namespace Env

/-- An action that leaves policies, bindings and places as they are. -/
structure Quiet (act : EnvM α) : Prop where
  ok : act e = .ok a e' → e.Later False e' ∧ e'.frame = e.frame ∧ e'.inlining = e.inlining

theorem Quiet.pure (a : α) : Quiet (Pure.pure a : EnvM α) := by
  refine ⟨fun h => ?_⟩
  cases h
  exact ⟨.refl .., rfl, rfl⟩

theorem Quiet.bind {x : EnvM α} {f : α → EnvM β} (hx : Quiet x) (hf : ∀ a, Quiet (f a)) :
    Quiet (x >>= f) := by
  refine ⟨fun h => ?_⟩
  obtain ⟨a, e₁, ha, h₁⟩ := EnvM.bind_ok h
  obtain ⟨hl, hfr, hi⟩ := hx.ok ha
  obtain ⟨hl', hfr', hi'⟩ := (hf a).ok h₁
  exact ⟨hl.trans hl', hfr'.trans hfr, hi'.trans hi⟩

theorem Quiet.get : Quiet (get : EnvM Env) := by
  refine ⟨fun h => ?_⟩
  cases h
  exact ⟨.refl .., rfl, rfl⟩

theorem Quiet.ofExcept (x : Except Fault α) : Quiet (Env.ofExcept x) := by
  refine ⟨fun h => ?_⟩
  obtain ⟨-, rfl⟩ := EnvM.ofExcept_ok h
  exact ⟨.refl .., rfl, rfl⟩

theorem Quiet.mkVar (v : Var) : Quiet (Env.mkVar v) := by
  refine ⟨fun h => ?_⟩
  obtain ⟨hl, -, hf, hi⟩ := Env.Later.mkVar False h
  exact ⟨hl, hf, hi⟩

theorem Quiet.constName (name : String) : Quiet (Env.constName name) := by
  refine ⟨fun h => ?_⟩
  obtain ⟨hgives, -, names, rfl⟩ := Gives.constName h
  exact ⟨⟨rfl, rfl, rfl, rfl, rfl, .refl _, .refl _, hgives, id, .inl rfl⟩, rfl, rfl⟩

theorem Quiet.mkInitVar (v : Var) : Quiet (Env.mkInitVar v) := by
  refine ⟨fun {e e' t} h => ?_⟩
  have h₁ := EnvM.get_ok h
  cases hv : e.inits.lookup v with
  | some i =>
    rw [hv] at h₁
    cases h₁
    exact ⟨.refl .., rfl, rfl⟩
  | none =>
    rw [hv] at h₁
    obtain ⟨n, e₁, hn, h₂⟩ := EnvM.bind_ok h₁
    obtain ⟨u, e₂, hu, h₃⟩ := EnvM.bind_ok h₂
    obtain ⟨rfl, -⟩ := const_ok hu
    cases h₃
    have hinits : e₂.inits = e.inits := by
      obtain ⟨-, -, rfl⟩ | ⟨-, -, rfl⟩ := constName_ok hn <;> rfl
    obtain ⟨hl, hf, hi⟩ := (Quiet.constName _).ok hn
    refine ⟨⟨hl.arch, hl.subs, hl.reach, hl.sideRules, hl.unrollBound, hl.vars,
      hl.inits.trans (Table.grows_put (hinits ▸ hv) _), ?_, hl.inlines, hl.weakenings⟩, hf, hi⟩
    exact ending_of_ok h ▸ Gives.mkInitVar v e

theorem mkInitVar_lookup {e e' : Env} {v : Var} {t : SomeTerm} (h : mkInitVar v e = .ok t e') :
    e'.inits.lookup v = some t := by
  have h₁ := EnvM.get_ok h
  cases hv : e.inits.lookup v with
  | some i =>
    rw [hv] at h₁
    cases h₁
    exact hv
  | none =>
    rw [hv] at h₁
    obtain ⟨n, e₁, hn, h₂⟩ := EnvM.bind_ok h₁
    obtain ⟨u, e₂, hu, h₃⟩ := EnvM.bind_ok h₂
    cases h₃
    exact Table.lookup_put_self ..

theorem Quiet.getCalled (name : String) : Quiet (Env.getCalled name) := by
  refine ⟨fun {e e' p} h => ?_⟩
  have hgives := ending_of_ok h ▸ Gives.getCalled name e
  cases hc : e.called.lookup (e.canonical name) with
  | some q =>
    rw [getCalled_of_lookup hc] at h
    cases h
    exact ⟨.refl .., rfl, rfl⟩
  | none =>
    obtain ⟨full, names, h'⟩ := getCalled_of_none hc
    rw [h'] at h
    cases h
    exact ⟨⟨rfl, rfl, rfl, rfl, rfl, .refl _, .refl _, hgives, id, .inl rfl⟩, rfl, rfl⟩

theorem Quiet.spRange : Quiet Env.spRange :=
  .bind .get fun _ => .bind (.mkVar _) fun _ => .bind (.ofExcept _) fun _ => .bind .get fun _ =>
    .pure _

end Env

namespace Walk

/-- Both environments are later ones, the walk is where it was, and nodes are only added. -/
structure Built (K K' : Constr → Prop) (w w' : World) : Prop where
  grows : K c → K' c
  fresh : K' c → K c ∨ w.nodes ≤ c.id
  nodes : w.nodes ≤ w'.nodes
  ledger : Constr.Ledger K w.nodes → Constr.Ledger K' w'.nodes
  register : Constr.Register K w.nodes → Constr.Register K' w'.nodes
  later (side : Side) : (w.env side).Later False (w'.env side)
  stays (side : Side) : Stays side w w'

/-- What an action gives is built from given constraints. -/
structure Builds (given : Constr → Prop) (act : Walk α) (out : α → List Constr) : Prop where
  ok : (∀ c, given c → K c) → act w = .ok a w' → ∃ K', Built K K' w w' ∧ ∀ c ∈ out a, K' c

variable {given K K₁ K₂ : Constr → Prop} {w w₁ w₂ : World} {side : Side}

theorem Built.refl (K : Constr → Prop) (w : World) : Built K K w w :=
  ⟨id, .inl, Nat.le_refl _, id, id, fun _ => .refl .., fun _ => .refl ..⟩

theorem Built.trans (h₁ : Built K K₁ w w₁) (h₂ : Built K₁ K₂ w₁ w₂) : Built K K₂ w w₂ where
  grows h := h₂.grows (h₁.grows h)
  fresh h := (h₂.fresh h).elim h₁.fresh fun hn => .inr (h₁.nodes.trans hn)
  nodes := h₁.nodes.trans h₂.nodes
  ledger h := h₂.ledger (h₁.ledger h)
  register h := h₂.register (h₁.register h)
  later side := (h₁.later side).trans (h₂.later side)
  stays side := (h₁.stays side).trans (h₂.stays side)

theorem Built.of_walked (h : Walked side False K K₁ w w₁) (hs : Stays side w w₁)
    (hr : Constr.Register K w.nodes → Constr.Register K₁ w₁.nodes) : Built K K₁ w w₁ := by
  refine ⟨h.grows, h.fresh, h.nodes, h.ledger, hr, fun side' => ?_, fun side' => ?_⟩
  all_goals
    by_cases heq : side' = side
    · subst heq
      first | exact h.later | exact hs
    · have ho := h.other heq
      first | exact ho ▸ .refl .. | exact ⟨by rw [ho], by rw [ho]⟩

namespace Builds

variable {out : α → List Constr} {out' : β → List Constr}

theorem pure {a : α} (h : ∀ c ∈ out a, given c) : Builds given (Pure.pure a) out := by
  refine ⟨fun {K _ _ _} hK hb => ?_⟩
  cases hb
  exact ⟨K, .refl .., fun c hc => hK c (h c hc)⟩

theorem bind {x : Walk α} {f : α → Walk β} (hx : Builds given x out)
    (hf : ∀ a, Builds (fun c => given c ∨ c ∈ out a) (f a) out') :
    Builds given (x >>= f) out' := by
  refine ⟨fun {K _ _ _} hK h => ?_⟩
  obtain ⟨a, w₁, ha, h₁⟩ := bind_ok h
  obtain ⟨K₁, hw₁, hout⟩ := hx.ok hK ha
  obtain ⟨K₂, hw₂, hout'⟩ :=
    (hf a).ok (fun c hc => hc.elim (fun h => hw₁.grows (hK c h)) (hout c)) h₁
  exact ⟨K₂, hw₁.trans hw₂, hout'⟩

theorem mono {given' : Constr → Prop} {x : Walk α} (hx : Builds given x out)
    (h : ∀ c, given c → given' c) : Builds given' x out :=
  ⟨fun hK => hx.ok fun c hc => hK c (h c hc)⟩

/-- Whatever is given, the environments are later ones. -/
theorem later {x : Walk α} {a : α} (hx : Builds (fun _ => False) x out) (h : x w = .ok a w₁)
    (side : Side) : (w.env side).Later False (w₁.env side) :=
  let ⟨_, hw, _⟩ := hx.ok (fun _ => id) h
  hw.later side

theorem subset {x : Walk α} {less : α → List Constr} (hx : Builds given x out)
    (h : ∀ a, less a ⊆ out a) : Builds given x less := by
  refine ⟨fun hK hx' => ?_⟩
  obtain ⟨K', hw, hout⟩ := hx.ok hK hx'
  exact ⟨K', hw, fun c hc => hout c (h _ hc)⟩

/-- An action before that builds nothing. -/
theorem skip {x : Walk α} {f : α → Walk β} (hx : Builds given x fun _ => [])
    (hf : ∀ a, Builds given (f a) out') : Builds given (x >>= f) out' :=
  hx.bind fun a => (hf a).mono fun _ => .inl

theorem throw (f : Fault) : Builds given (throw f : Walk α) out := ⟨nofun⟩

theorem env (side : Side) : Builds given (Walk.env side) fun _ => [] := by
  refine ⟨fun {K _ _ _} _ h => ?_⟩
  obtain ⟨-, rfl⟩ := env_ok h
  exact ⟨K, .refl .., nofun⟩

theorem ofExcept (x : Except Fault α) : Builds given (Walk.ofExcept x) fun _ => [] := by
  refine ⟨fun {K _ _ _} _ h => ?_⟩
  obtain ⟨-, rfl⟩ := ofExcept_ok h
  exact ⟨K, .refl .., nofun⟩

theorem on {act : EnvM α} (h : Env.Quiet act) (side : Side) :
    Builds given (Walk.on side act) fun _ => [] := by
  refine ⟨fun {K w _ _} _ ha => ?_⟩
  obtain ⟨e, he, rfl⟩ := on_ok ha
  obtain ⟨hl, hf, hi⟩ := h.ok he
  refine ⟨K, .of_walked (.setEnv hl) ⟨?_, ?_⟩ (World.nodes_setEnv w side e ▸ id), nofun⟩
  · rw [World.env_setEnv, hf]
  · rw [World.env_setEnv, hi]

theorem mkGoal (name : String) (value : Term .bool) (tid : Option String) :
    Builds given (Walk.mkGoal name value tid) fun c => [c] := by
  refine ⟨fun {K w _ _} _ h => ?_⟩
  obtain ⟨rfl, rfl⟩ := mkGoal_ok h
  obtain ⟨hw, hs⟩ := Walked.node .orig False K (c := .goal w.nodes name value tid) rfl nofun
    fun _ => Constr.formal_goal _ _
  exact ⟨_, .of_walked hw hs fun hK => hK.add rfl nofun, fun d hd => .inr (List.mem_singleton.mp hd)⟩

theorem mkClause {hyps goals : List Constr} (h : ∀ c ∈ hyps ++ goals, given c) :
    Builds given (Walk.mkClause hyps goals) fun c => [c] := by
  refine ⟨fun {K w _ _} hK hc => ?_⟩
  obtain ⟨rfl, rfl⟩ := mkClause_ok hc
  obtain ⟨hw, hs⟩ := Walked.node .orig False K (c := .clause w.nodes hyps goals) rfl
    (fun d hd => hK d (h d hd))
    fun hK' => Constr.formal_clause
      (fun d hd => hK'.formal (hK d (h d (List.mem_append_left _ hd))))
      (fun d hd => hK'.formal (hK d (h d (List.mem_append_right _ hd))))
  exact ⟨_, .of_walked hw hs fun hK' => hK'.add rfl fun d hd => hK d (h d hd),
    fun d hd => .inr (List.mem_singleton.mp hd)⟩

theorem mapM {xs : List β} {f : β → Walk α} (out : α → List Constr)
    (h : ∀ x ∈ xs, Builds given (f x) out) :
    Builds given (xs.mapM f) fun as => as.flatMap out := by
  induction xs with
  | nil => exact pure nofun
  | cons x xs ih =>
    rw [List.mapM_cons]
    refine (h x List.mem_cons_self).bind fun a => ?_
    refine ((ih fun y hy => h y (List.mem_cons_of_mem _ hy)).mono fun c => .inl).bind fun as => ?_
    refine pure fun c hc => ?_
    rcases List.mem_append.mp hc with hc | hc
    · exact .inl (.inr hc)
    · exact .inr hc

/-- Nodes that are built one after the other. -/
theorem nodes {xs : List β} {f : β → Walk Constr}
    (h : ∀ x ∈ xs, Builds given (f x) fun c => [c]) : Builds given (xs.mapM f) id :=
  (mapM _ h).subset fun cs => by rw [List.flatMap_singleton']; exact List.Subset.refl _

/-- A clause of nodes that are built one after the other. -/
theorem clause {xs : List β} {f : β → Walk Constr}
    (h : ∀ x ∈ xs, Builds given (f x) fun c => [c]) :
    Builds given (do Walk.mkClause [] (← xs.mapM f)) fun c => [c] :=
  (nodes h).bind fun _ => mkClause fun _ hc => .inr hc

/-- Actions one after the other that build nothing. -/
theorem nothing {xs : List β} {f : β → Walk α} (h : ∀ x ∈ xs, Builds given (f x) fun _ => []) :
    Builds given (xs.mapM f) fun _ => [] :=
  (mapM _ h).subset fun _ => List.nil_subset _

theorem trivial : Builds given Walk.trivial fun c => [c] := mkGoal ..

theorem conjoin {cs : List Constr} (h : ∀ c ∈ cs, given c) :
    Builds given (Walk.conjoin cs) fun c => [c] := by
  unfold Walk.conjoin
  split
  · exact pure h
  · exact mkClause h

theorem equate (name : String) (x y : SomeTerm) :
    Builds given (Walk.equate name x y) fun c => [c] :=
  (ofExcept _).skip fun _ => mkGoal ..

end Builds

end Walk

end Precond

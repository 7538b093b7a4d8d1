import Precond.Proofs.Run.Sub
import Precond.Proofs.Walk.Later
import Precond.Walk.Block

/-! Blocks, backwards, against runs. The precondition of the definitions of a block says of a state
what the constraint behind them says of the state after them (`visitDefs_ok`), and that of its
jumps says what is said where the taken jump leads (`visitJumps_ok`). Callees are left to
`Expands`, what is asked of the action that expands them. -/

namespace Precond.Walk

open IR Precond.Flow

variable {side : Side} {cuts : Prop} {K : Constr → Prop} {w w' : World} {subs : List Sub}

/-- The walk runs without side rules and forced jumps, and callees of the class `C` are expanded. -/
structure Ready (side : Side) (subs : List Sub) (C : Sub → Prop) (K : Constr → Prop) (w : World) :
    Prop where
  ledger : Constr.Ledger K w.nodes
  named : (w.env side).Named
  subs : (w.env side).subs = subs
  reach : (w.env side).reach = []
  sideRules : (w.env side).sideRules = []
  inlines : C s → (w.env side).Inlines s

theorem Ready.walked {C : Sub → Prop} {K' : Constr → Prop} (h : Ready side subs C K w)
    (hw : Walked side cuts K K' w w') : Ready side subs C K' w' where
  ledger := hw.ledger h.ledger
  named := hw.later.named h.named
  subs := hw.later.subs.trans h.subs
  reach := hw.later.reach.trans h.reach
  sideRules := hw.later.sideRules.trans h.sideRules
  inlines hs := hw.later.inlines (h.inlines hs)

/-! ### Definitions -/

/-- A constraint says of a model what another one says of the model after some definitions. -/
def Before (V : Table Var SomeTerm) (ds : List Def) (c post : Constr) (m : Model) : Prop :=
  ∃ m', m.Off V m' ∧ Assigns ds (m.store V) (m'.store V) ∧ c.truth m = post.truth m'

theorem assign_ok (cuts : Prop) {C : Sub → Prop} {post c : Constr} {d : Def}
    (hw : Ready side subs C K w)
    (hpost : K post) (h : assign side post d.lhs d.rhs w = .ok c w') :
    ∃ K', Walked side cuts K K' w w' ∧ Stays side w w' ∧ K' c ∧
      ∀ V, Table.Grows (w'.env side).vars V → Separate V → ∀ m, Before V [d] c post m := by
  obtain ⟨⟨value, hooks⟩, w₁, hvalue, h₁⟩ := bind_ok h
  obtain ⟨rfl, hd, hst⟩ := translateChecked_ok hw.sideRules hvalue
  obtain ⟨old, w₂, hold, h₂⟩ := bind_ok h₁
  obtain ⟨hw₁, hs₁⟩ := Walked.drawn cuts K hd
  obtain ⟨hw₂, hs₂, hlook⟩ := mkVar_ok cuts K hold
  by_cases hsort : value.1 ≠ old.1
  · rw [if_pos hsort] at h₂
    cases h₂
  rw [if_neg hsort] at h₂
  obtain ⟨post', w₃, hguard, h₃⟩ := bind_ok h₂
  cases hguard
  obtain ⟨c', w₄, hsub, h₄⟩ := bind_ok h₃
  cases h₄
  obtain ⟨rfl, rfl⟩ := substitute_ok hsub
  obtain ⟨s, x⟩ := value
  obtain ⟨s', old⟩ := old
  obtain rfl : s = s' := not_not.mp hsort
  have hformal : Constr.Ledger K w₂.nodes → post.Formal := fun hK => hK.formal hpost
  obtain ⟨hw₃, hs₃⟩ := Walked.node side cuts K
    (c := .subst w₂.nodes post [(⟨s, old⟩, ⟨s, x⟩)]) rfl
    (fun d hd => List.mem_singleton.mp hd ▸ hpost)
    (fun hK => Constr.formal_subst (hformal hK) old x)
  have hall := (hw₁.trans hw₂).trans hw₃
  refine ⟨_, hall, (hs₁.trans hs₂).trans hs₃, .inr rfl, fun V hV hsep m => ?_⟩
  have hold := hV _ _ (hw₃.later.vars _ _ hlook)
  obtain ⟨n, s', he⟩ := hsep.const hold
  cases he
  refine ⟨m.withConst n x, Model.off_withConst hold m x, ?_, ?_⟩
  · refine .cons (hst V ((hw₁.trans (hw₂.trans hw₃)).later.vars.trans hV) m) ?_
    rw [Model.store_withConst hsep hold]
    exact .nil
  · exact Constr.truth_subst (hw.ledger.formal hpost) n x

/-- The precondition of a list of definitions. -/
theorem visitDefs_ok (cuts : Prop) {C : Sub → Prop} {expand : Expand} {post c : Constr}
    {ds : List Def} (hw : Ready side subs C K w) (hpost : K post)
    (h : visitElts expand side post (ds.map .define) w = .ok c w') :
    ∃ K', Walked side cuts K K' w w' ∧ Stays side w w' ∧ K' c ∧
      ∀ V, Table.Grows (w'.env side).vars V → Separate V → ∀ m, Before V ds c post m := by
  induction ds generalizing c w' with
  | nil =>
    cases h
    exact ⟨K, .refl .., .refl .., hpost, fun V _ _ m => ⟨m, .refl .., .nil, rfl⟩⟩
  | cons d ds ih =>
    obtain ⟨mid, w₁, hmid, h₁⟩ := bind_ok h
    obtain ⟨K₁, hw₁, hs₁, hk₁, hmeet⟩ := ih hmid
    obtain ⟨K₂, hw₂, hs₂, hk₂, hfirst⟩ := assign_ok cuts (hw.walked hw₁) hk₁ h₁
    refine ⟨K₂, hw₁.trans hw₂, hs₁.trans hs₂, hk₂, fun V hV hsep m => ?_⟩
    obtain ⟨m₁, ho₁, ha₁, ht₁⟩ := hfirst V hV hsep m
    obtain ⟨m₂, ho₂, ha₂, ht₂⟩ := hmeet V (hw₂.later.vars.trans hV) hsep m₁
    cases ha₁ with
    | cons hx hnil =>
      refine ⟨m₂, ho₁.trans ho₂, .cons hx ?_, ht₁.trans ht₂⟩
      generalize m₁.store V = σ at hnil ha₂
      cases hnil
      exact ha₂

theorem visitElts_append {expand : Expand} {post c : Constr} {xs ys : List Elt}
    (h : visitElts expand side post (xs ++ ys) w = .ok c w') :
    ∃ mid w₁, visitElts expand side post ys w = .ok mid w₁ ∧
      visitElts expand side mid xs w₁ = .ok c w' := by
  induction xs generalizing c w' with
  | nil => exact ⟨c, w', h, rfl⟩
  | cons x xs ih =>
    obtain ⟨d, w₂, hd, h₁⟩ := bind_ok h
    obtain ⟨mid, w₁, hmid, hxs⟩ := ih hd
    exact ⟨mid, w₁, hmid, (bind_of_ok hxs).trans h₁⟩

/-! ### Jumps -/

/-- The truth value `b` is that of `post` after a run of a subroutine, unless the run strays. -/
def RunsTo (V : Table Var SomeTerm) (subs : List Sub) (s : Sub) (entry : String) (post : Constr)
    (m : Model) (b : Bool) : Prop :=
  (∃ trace m', m.Off V m' ∧ Runs subs s entry (m.store V) trace (.returned (m'.store V)) ∧
    b = post.truth m') ∨
  ∃ trace u, Runs subs s entry (m.store V) trace (.strayed u)

/-- The truth value `b` is that of what is known to hold where a way leads. Nothing is known of a
name without a target. -/
def Follows (V : Table Var SomeTerm) (subs : List Sub) (targets : Table String Constr)
    (ret : Constr) (m : Model) (b : Bool) : Way → Prop
  | .goto t => ∀ k, targets.lookup t = some k → b = k.truth m
  | .out => b = ret.truth m
  | .call f none => ∃ c e, Enters subs f c e ∧ RunsTo V subs c e ret m b
  | .call f (some t) => ∃ c e k, Enters subs f c e ∧ RunsTo V subs c e k m b ∧
    ∀ k', targets.lookup t = some k' → k = k'

/-- The callees that may be expanded: a callee of the class `C` has blocks, is not expanded already
where it is called, and may be walked below its caller as `D` tells. -/
def JumpIn (subs : List Sub) (D : List String → Sub → Prop) (C : Sub → Prop)
    (inlining : List String) (j : Jump) : Prop :=
  ∃ way, j.way? = some way ∧ ∀ f back, way = .call f back →
    ∃ c, findCallee? subs (.direct f) = some c ∧ C c ∧ c.blks ≠ [] ∧ c.tid ∉ inlining ∧
      D (c.tid :: inlining) c

/-- What is asked of the action that expands callees. -/
def Expands (side : Side) (cuts : Prop) (subs : List Sub) (D : List String → Sub → Prop)
    (C : Sub → Prop) (expand : Expand) : Prop :=
  ∀ {K : Constr → Prop} {w w' : World} {post c : Constr} {s : Sub}, Ready side subs C K w →
    K post → C s → D (w.env side).inlining s → (w.env side).frame.root = none →
    expand side post s w = .ok c w' →
    ∃ K', Walked side cuts K K' w w' ∧ (w'.env side).inlining = (w.env side).inlining ∧ K' c ∧
      ∃ e, s.first? = some e ∧ ∀ V, Table.Grows (w'.env side).vars V → Separate V →
        ∀ m, RunsTo V subs s e post m (c.truth m)

/-- Where the walk is within a subroutine: what holds at its return and at its blocks. -/
structure Placed (side : Side) (K : Constr → Prop) (targets : Table String Constr) (ret : Constr)
    (w : World) : Prop where
  retPost : (w.env side).frame.retPost = some ret
  table : (w.env side).frame.targets = targets
  retK : K ret
  targetK : targets.lookup t = some k → K k

variable {D : List String → Sub → Prop} {C : Sub → Prop} {expand : Expand}
  {targets : Table String Constr} {ret post c : Constr}

theorem Placed.walked {K' : Constr → Prop} (h : Placed side K targets ret w)
    (hw : Walked side cuts K K' w w') (hs : Stays side w w') : Placed side K' targets ret w' where
  retPost := by rw [hs.frame]; exact h.retPost
  table := by rw [hs.frame]; exact h.table
  retK := hw.grows h.retK
  targetK hk := hw.grows (h.targetK hk)

theorem targetPre_ok {t : String} (hp : Placed side K targets ret w) (hpost : K post)
    (h : targetPre side (.direct t) post w = .ok c w') :
    w' = w ∧ K c ∧ ∀ k, targets.lookup t = some k → c = k := by
  obtain ⟨e, w₁, he, h₁⟩ := bind_ok h
  obtain ⟨rfl, rfl⟩ := env_ok he
  cases h₁
  rw [hp.table]
  refine ⟨rfl, ?_, fun k hk => by rw [hk]; rfl⟩
  cases hk : targets.lookup t with
  | some k => exact hp.targetK hk
  | none => exact hpost

theorem returnPre_ok (hp : Placed side K targets ret w) (h : returnPre side post w = .ok c w') :
    w' = w ∧ c = ret := by
  obtain ⟨e, w₁, he, h₁⟩ := bind_ok h
  obtain ⟨rfl, rfl⟩ := env_ok he
  cases h₁
  rw [hp.retPost]
  exact ⟨rfl, rfl⟩

/-- A call whose callee is expanded. -/
theorem inlineCall_ok {s : Sub} {after : Constr} {tid : String}
    (hx : Expands side cuts subs D C expand) (hw : Ready side subs C K w) (hafter : K after)
    (hC : C s) (hne : s.blks ≠ []) (hnot : s.tid ∉ (w.env side).inlining)
    (hD : D (s.tid :: (w.env side).inlining) s)
    (h : inlineCall expand side s after tid w = .ok c w') :
    ∃ K', Walked side cuts K K' w w' ∧ Stays side w w' ∧ K' c ∧
      ∃ e, s.first? = some e ∧ ∀ V, Table.Grows (w'.env side).vars V → Separate V →
        ∀ m, RunsTo V subs s e after m (c.truth m) := by
  unfold inlineCall at h
  rw [if_neg (by simpa using hne)] at h
  obtain ⟨e₀, w₁, he₀, h₁⟩ := bind_ok h
  obtain ⟨rfl, rfl⟩ := env_ok he₀
  rw [if_neg (by simpa using hnot)] at h₁
  obtain ⟨u, w₂, hu, h₂⟩ := bind_ok h₁
  obtain ⟨hw₂, he₂⟩ := modifyEnv_later (fun e => .of_frame cuts ..) hu
  obtain ⟨w₇, hframe, hw₇, he₇⟩ := restoring_later (fun e => .of_frame cuts ..) h₂
  obtain ⟨e₃, w₃, he₃, h₃⟩ := bind_ok hframe
  obtain ⟨rfl, rfl⟩ := env_ok he₃
  obtain ⟨v, w₄, hv, h₄⟩ := bind_ok h₃
  obtain ⟨hw₄, he₄⟩ := modifyEnv_later (fun e => .of_frame cuts ..) hv
  obtain ⟨w₅, hexpand, hw₅, he₅⟩ := restoring_later (fun e => .of_frame cuts ..) h₄
  have hinl : (w₄.env side).inlining = s.tid :: (w₁.env side).inlining := by rw [he₄, he₂]
  obtain ⟨K', hw', hi, hk, e, he, hrun⟩ := hx (hw.walked ((hw₂ K).trans (hw₄ K))) hafter hC
    (hinl ▸ hD) (by rw [he₄]; rfl) hexpand
  refine ⟨K', (((hw₂ K).trans (hw₄ K)).trans hw').trans ((hw₅ K').trans (hw₇ K')), ⟨?_, ?_⟩, hk,
    e, he, fun V hV => hrun V (((hw₅ K').trans (hw₇ K')).later.vars.trans hV)⟩
  · rw [he₇, he₅, he₂]
  · rw [he₇, he₅]
    exact (congrArg (List.drop 1) (hi.trans hinl)).trans rfl

theorem targetPre_world {l : Label} (h : targetPre side l post w = .ok c w') : w' = w := by
  cases l with
  | direct t =>
    obtain ⟨e, w₁, he, h₁⟩ := bind_ok h
    obtain ⟨rfl, rfl⟩ := env_ok he
    cases h₁
    rfl
  | indirect a => cases h; rfl

theorem returnPre_world (h : returnPre side post w = .ok c w') : w' = w := by
  obtain ⟨e, w₁, he, h₁⟩ := bind_ok h
  obtain ⟨rfl, rfl⟩ := env_ok he
  cases h₁
  rfl

/-- What holds behind a call. -/
def callAfter (side : Side) (post : Constr) : Option Label → Walk Constr
  | none => returnPre side post
  | some l => targetPre side l post

/-- A call of a callee of the program whose rule is to expand it. -/
theorem visitCall_inv (cuts : Prop) (K : Constr → Prop) {f tid : String} {back : Option Label}
    {s : Sub} (hs : (w.env side).findSub? (.direct f) = some s) (hi : (w.env side).Inlines s)
    (h : visitCall expand side post tid (.direct f) back w = .ok c w') :
    ∃ after w₁, callAfter side post back w = .ok after w ∧ Walked side cuts K K w w₁ ∧
      Stays side w w₁ ∧ inlineCall expand side s after tid w₁ = .ok c w' := by
  cases back
  all_goals
    obtain ⟨after, w₁, ha, h₁⟩ := bind_ok h
    first | obtain rfl := returnPre_world ha | obtain rfl := targetPre_world ha
    obtain ⟨e, w₂, he, h₂⟩ := bind_ok h₁
    obtain ⟨rfl, rfl⟩ := env_ok he
    rw [hs] at h₂
    obtain ⟨callee, w₃, hcallee, h₃⟩ := bind_ok h₂
    cases hcallee
    obtain ⟨handler, w₄, hh, h₄⟩ := bind_ok h₃
    obtain ⟨hw, hst, tids, hr⟩ := handler_ok hi hh
    rw [hr] at h₄
    exact ⟨after, w₄, ha, hw, hst, h₄⟩

/-- A call expands its callee for what holds behind the call. -/
theorem visitCall_ok {f tid : String} {back : Option Label} {s : Sub}
    (hx : Expands side cuts subs D C expand) (hw : Ready side subs C K w)
    (hK : ∀ after, callAfter side post back w = .ok after w → K after)
    (hs : findCallee? subs (.direct f) = some s) (hC : C s) (hne : s.blks ≠ [])
    (hnot : s.tid ∉ (w.env side).inlining) (hD : D (s.tid :: (w.env side).inlining) s)
    (h : visitCall expand side post tid (.direct f) back w = .ok c w') :
    ∃ K' after, Walked side cuts K K' w w' ∧ Stays side w w' ∧ K' c ∧
      callAfter side post back w = .ok after w ∧
      ∃ e, Enters subs f s e ∧ ∀ V, Table.Grows (w'.env side).vars V → Separate V →
        ∀ m, RunsTo V subs s e after m (c.truth m) := by
  obtain ⟨after, w₁, ha, hw₁, hs₁, h₁⟩ := visitCall_inv cuts K
    (by rw [Env.findSub?, hw.subs, hs]) (hw.inlines hC) h
  rw [← hs₁.inlining] at hnot hD
  obtain ⟨K', hw', hs', hk, e, he, hrun⟩ :=
    inlineCall_ok hx (hw.walked hw₁) (hK after ha) hC hne hnot hD h₁
  exact ⟨K', after, hw₁.trans hw', hs₁.trans hs', hk, ha, e, .mk hs he, hrun⟩

/-- The precondition where a jump leads. -/
theorem jumpPre_ok {j : Jump} {way : Way} (hx : Expands side cuts subs D C expand)
    (hw : Ready side subs C K w) (hp : Placed side K targets ret w) (hpost : K post)
    (hj : JumpIn subs D C (w.env side).inlining j) (hway : j.way? = some way)
    (h : jumpPre expand side post j w = .ok c w') :
    ∃ K', Walked side cuts K K' w w' ∧ Stays side w w' ∧ K' c ∧
      ∀ V, Table.Grows (w'.env side).vars V → Separate V →
        ∀ m, Follows V subs targets ret m (c.truth m) way := by
  obtain ⟨way', hway', hcall⟩ := hj
  cases hway'.symm.trans hway
  rw [Jump.way?] at hway
  rw [jumpPre] at h
  split at hway
  · rename_i t hk
    cases hway
    rw [hk] at h
    obtain ⟨rfl, hk', hc⟩ := targetPre_ok hp hpost h
    exact ⟨K, .refl .., .refl .., hk', fun V _ _ m k hl => by rw [hc k hl]⟩
  · rename_i t hk
    cases hway
    rw [hk] at h
    obtain ⟨rfl, rfl⟩ := returnPre_ok hp h
    exact ⟨K, .refl .., .refl .., hp.retK, fun V _ _ m => rfl⟩
  · rename_i f hk
    cases hway
    rw [hk] at h
    obtain ⟨s, hs, hC, hne, hnot, hD⟩ := hcall _ _ rfl
    have hafter : ∀ after, callAfter side post none w = .ok after w → after = ret :=
      fun after ha => (returnPre_ok hp ha).2
    obtain ⟨K', after, hw', hs', hk', ha, e, he, hrun⟩ := visitCall_ok hx hw
      (fun after ha => hafter after ha ▸ hp.retK) hs hC hne hnot hD h
    obtain rfl := hafter after ha
    exact ⟨K', hw', hs', hk', fun V hV hsep m => ⟨s, e, he, hrun V hV hsep m⟩⟩
  · rename_i f t hk
    cases hway
    rw [hk] at h
    obtain ⟨s, hs, hC, hne, hnot, hD⟩ := hcall _ _ rfl
    have hafter : ∀ after, callAfter side post (some (.direct t)) w = .ok after w →
        K after ∧ ∀ k, targets.lookup t = some k → after = k :=
      fun after ha => (targetPre_ok hp hpost ha).2
    obtain ⟨K', after, hw', hs', hk', ha, e, he, hrun⟩ := visitCall_ok hx hw
      (fun after ha => (hafter after ha).1) hs hC hne hnot hD h
    exact ⟨K', hw', hs', hk', fun V hV hsep m => ⟨s, e, after, he, hrun V hV hsep m,
      (hafter after ha).2⟩⟩
  · cases hway

/-- A jump is where it leads if it is taken, and what follows it if it is not. -/
theorem visitJump_ok {j : Jump} {way : Way} (hx : Expands side cuts subs D C expand)
    (hw : Ready side subs C K w) (hp : Placed side K targets ret w) (hpost : K post)
    (hj : JumpIn subs D C (w.env side).inlining j) (hway : j.way? = some way)
    (h : visitJump expand side post j w = .ok c w') :
    ∃ K', Walked side cuts K K' w w' ∧ Stays side w w' ∧ K' c ∧
      ∀ V, Table.Grows (w'.env side).vars V → Separate V → ∀ m, ∃ x b, j.cond.Yields (m.store V) x ∧
        x.nonZero? = some b ∧
        if b then Follows V subs targets ret m (c.truth m) way else c.truth m = post.truth m := by
  obtain ⟨e₀, w₀, he₀, h₁⟩ := bind_ok h
  obtain ⟨rfl, rfl⟩ := env_ok he₀
  have hforced : forced? (w₀.env side) j = none := by
    rw [forced?, hw.reach]
    rfl
  rw [hforced] at h₁
  obtain ⟨after, w₁, hafter, h₂⟩ := bind_ok h₁
  obtain ⟨K₁, hw₁, hs₁, hk₁, hfollow⟩ := jumpPre_ok hx hw hp hpost hj hway hafter
  by_cases hcond : j.cond = Exp.always
  · rw [if_pos hcond] at h₂
    cases h₂
    refine ⟨K₁, hw₁, hs₁, hk₁, fun V hV hsep m => ⟨.word 1#1, true, ?_, rfl, hfollow V hV hsep m⟩⟩
    rw [hcond]
    exact .always
  rw [if_neg hcond] at h₂
  obtain ⟨⟨x, hooks⟩, w₂, hx₂, h₃⟩ := bind_ok h₂
  obtain ⟨rfl, hd, hst⟩ := translateChecked_ok (hw.walked hw₁).sideRules hx₂
  obtain ⟨hw₂, hs₂⟩ := Walked.drawn cuts K₁ hd
  obtain ⟨p, w₃, hp₃, h₄⟩ := bind_ok h₃
  obtain ⟨hp', rfl⟩ := ofExcept_ok hp₃
  obtain ⟨pre, w₄, hpre, h₅⟩ := bind_ok h₄
  obtain ⟨rfl, rfl⟩ := mkBranch_ok hpre
  cases h₅
  have hready := hw.walked (hw₁.trans hw₂)
  have hafterf : after.Formal := hready.ledger.formal hk₁
  have hpostf : post.Formal := hw.ledger.formal hpost
  obtain ⟨hw₃, hs₃⟩ := Walked.node side cuts K₁
    (c := .branch w₃.nodes j.tid p after post) rfl
    (fun d hd => by
      rcases List.mem_cons.mp hd with rfl | hd
      · exact hk₁
      · exact List.mem_singleton.mp hd ▸ hw₁.grows hpost)
    (fun _ => Constr.formal_branch hafterf hpostf)
  refine ⟨_, (hw₁.trans hw₂).trans hw₃, (hs₁.trans hs₂).trans hs₃, .inr rfl, fun V hV hsep m => ?_⟩
  refine ⟨x.value m, p.holds m, hst V ((hw₂.trans hw₃).later.vars.trans hV) m,
    SomeTerm.condition_value hp', ?_⟩
  rw [Constr.truth_branch hafterf hpostf]
  split
  · exact hfollow V ((hw₂.trans hw₃).later.vars.trans hV) hsep m
  · rfl

/-- The jumps of a block: what they say is what is said where the taken jump leads, and behind the
block if no jump is taken. -/
theorem visitJumps_ok {js : List Jump} (hx : Expands side cuts subs D C expand)
    (hw : Ready side subs C K w) (hp : Placed side K targets ret w) (hpost : K post)
    (hj : ∀ j ∈ js, JumpIn subs D C (w.env side).inlining j)
    (h : visitElts expand side post (js.map .jump) w = .ok c w') :
    ∃ K', Walked side cuts K K' w w' ∧ Stays side w w' ∧ K' c ∧
      ∀ V, Table.Grows (w'.env side).vars V → Separate V → ∀ m,
        (∃ j way, Takes (m.store V) js (some j) ∧ j.way? = some way ∧
          Follows V subs targets ret m (c.truth m) way) ∨
        Takes (m.store V) js none ∧ c.truth m = post.truth m := by
  induction js generalizing c w' with
  | nil =>
    cases h
    exact ⟨K, .refl .., .refl .., hpost, fun V _ _ m => .inr ⟨.nil, rfl⟩⟩
  | cons j js ih =>
    obtain ⟨mid, w₁, hmid, h₁⟩ := bind_ok h
    obtain ⟨K₁, hw₁, hs₁, hk₁, hrest⟩ := ih (fun i hi => hj i (List.mem_cons_of_mem _ hi)) hmid
    have hj₁ := hj j List.mem_cons_self
    rw [← hs₁.inlining] at hj₁
    obtain ⟨way, hway, -⟩ := id hj₁
    obtain ⟨K₂, hw₂, hs₂, hk₂, hfirst⟩ :=
      visitJump_ok hx (hw.walked hw₁) (hp.walked hw₁ hs₁) hk₁ hj₁ hway h₁
    refine ⟨K₂, hw₁.trans hw₂, hs₁.trans hs₂, hk₂, fun V hV hsep m => ?_⟩
    obtain ⟨x, b, hy, hz, hb⟩ := hfirst V hV hsep m
    cases b with
    | true => exact .inl ⟨j, way, .this hy hz, hway, hb⟩
    | false =>
      change c.truth m = mid.truth m at hb
      rw [hb]
      rcases hrest V (hw₂.later.vars.trans hV) hsep m with ⟨i, way', ht, hway', hf⟩ | ⟨ht, hf⟩
      · exact .inl ⟨i, way', .next hy hz ht, hway', hf⟩
      · exact .inr ⟨.next hy hz ht, hf⟩

/-! ### Blocks -/

/-- What a block says of a state is what is said where control goes from it. -/
theorem visitBlk_ok {b : Blk} (hx : Expands side cuts subs D C expand) (hw : Ready side subs C K w)
    (hp : Placed side K targets ret w) (hpost : K post) (hphis : b.phis = [])
    (hj : ∀ j ∈ b.jumps, JumpIn subs D C (w.env side).inlining j)
    (h : visitElts expand side post b.elts w = .ok c w') :
    ∃ K', Walked side cuts K K' w w' ∧ Stays side w w' ∧ K' c ∧
      ∀ V, Table.Grows (w'.env side).vars V → Separate V → ∀ m, ∃ m', m.Off V m' ∧
        Assigns b.defs (m.store V) (m'.store V) ∧
        ((∃ j way, Takes (m'.store V) b.jumps (some j) ∧ j.way? = some way ∧
            Follows V subs targets ret m' (c.truth m) way) ∨
          Takes (m'.store V) b.jumps none ∧ c.truth m = post.truth m') := by
  rw [Blk.elts, hphis] at h
  obtain ⟨mid, w₁, hmid, h₁⟩ := visitElts_append h
  obtain ⟨K₁, hw₁, hs₁, hk₁, hjumps⟩ := visitJumps_ok hx hw hp hpost hj hmid
  obtain ⟨K₂, hw₂, hs₂, hk₂, hdefs⟩ := visitDefs_ok cuts (hw.walked hw₁) hk₁ h₁
  refine ⟨K₂, hw₁.trans hw₂, hs₁.trans hs₂, hk₂, fun V hV hsep m => ?_⟩
  obtain ⟨m₁, ho, ha, ht⟩ := hdefs V hV hsep m
  exact ⟨m₁, ho, ha, ht ▸ hjumps V (hw₂.later.vars.trans hV) hsep m₁⟩

end Precond.Walk

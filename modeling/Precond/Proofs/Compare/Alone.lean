import Precond.Proofs.Compare.Texts
import Precond.Proofs.Exact.Relational
import Precond.Proofs.Walk.Linear

/-! Two blocks compared by themselves. Registers are equal and a text is true in a model just if the world
asks so (`World.Asks`). Such a comparison asks at the exits for what is so once the definitions of both
blocks have been executed (`Compare.blocks_truth`). -/

namespace Precond

open IR Walk

namespace Walk

variable {side : Side} {w w₁ w₂ : World} {vars us vs : List Var} {v : Var} {t : SomeTerm} {c : Constr}
  {gs : List Constr}

/-- Constants for the values at entry have been made for some variables. -/
structure Records (side : Side) (vars : List Var) (w w₁ : World) : Prop where
  entry : (w₁.env side).inits.lookup u ≠ none ↔ u ∈ vars ∨ (w.env side).inits.lookup u ≠ none
  other : side' ≠ side → w₁.env side' = w.env side'
  vars : (w.env side).vars.Single → (w₁.env side).vars.Single
  inits : (w.env side).inits.Single → (w₁.env side).inits.Single

theorem Records.refl (side : Side) (w : World) : Records side [] w w := by
  refine ⟨fun {u} => ?_, fun _ => rfl, id, id⟩
  rw [List.mem_nil_iff, false_or]

theorem Records.trans (h₁ : Records side us w w₁) (h₂ : Records side vs w₁ w₂) :
    Records side (us ++ vs) w w₂ where
  entry {u} := by
    rw [h₂.entry, h₁.entry, List.mem_append]
    tauto
  other hs := (h₂.other hs).trans (h₁.other hs)
  vars h := h₂.vars (h₁.vars h)
  inits h := h₂.inits (h₁.inits h)

theorem Records.orderly (h : Records side vars w w₁) (hw : w.Orderly) : w₁.Orderly := by
  refine ⟨fun side' => ?_, fun side' => ?_⟩ <;> by_cases hs : side' = side
  · exact hs ▸ h.vars (hw.vars side)
  · exact h.other hs ▸ hw.vars side'
  · exact hs ▸ h.inits (hw.inits side)
  · exact h.other hs ▸ hw.inits side'

theorem mkVar_records (h : on side (Env.mkVar v) w = .ok t w₁) : Records side [] w w₁ := by
  obtain ⟨e, he, rfl⟩ := on_ok h
  obtain ⟨hinits, hvars⟩ : e.inits = (w.env side).inits ∧
      (e.vars = (w.env side).vars ∨ e.vars = Table.put (w.env side).vars v t) := by
    obtain ⟨hv, rfl⟩ | ⟨n, s, e₁, -, hname, -, -, rfl⟩ := Env.mkVar_ok he
    · exact ⟨rfl, .inl rfl⟩
    · obtain ⟨full, names, hfull⟩ := Env.constName_eq v.name (w.env side)
      cases hfull.symm.trans hname
      exact ⟨rfl, .inr rfl⟩
  refine ⟨fun {u} => ?_, fun hs => World.env_setEnv_of_ne _ _ _ hs, fun hw => ?_, fun hw => ?_⟩ <;>
    rw [World.env_setEnv]
  · rw [List.mem_nil_iff, false_or, hinits]
  · rcases hvars with hvars | hvars <;> rw [hvars]
    · exact hw
    · exact hw.put ..
  · exact hinits ▸ hw

theorem mkInitVar_records (h : on side (Env.mkInitVar v) w = .ok t w₁) : Records side [v] w w₁ := by
  obtain ⟨e, he, rfl⟩ := on_ok h
  have hput {u : Var} {i : SomeTerm} (e : Env) : (Table.put e.inits v i).lookup u ≠ none ↔
      u ∈ [v] ∨ e.inits.lookup u ≠ none := by
    rw [List.mem_singleton]
    by_cases huv : u = v
    · simp [huv, Table.lookup_put_self]
    · simp [huv, Table.lookup_put_of_ne]
  refine ⟨fun {u} => ?_, fun hs => World.env_setEnv_of_ne _ _ _ hs, fun hw => ?_, fun hw => ?_⟩ <;>
    rw [World.env_setEnv]
  all_goals cases hv : (w.env side).inits.lookup v with
  | some i =>
    cases (Env.mkInitVar_of_lookup hv).symm.trans he
    first
      | exact hw
      | exact ⟨.inr, fun hu => hu.elim (fun hu => by rw [List.mem_singleton.mp hu, hv]; nofun) id⟩
  | none =>
    obtain ⟨full, names, hfull⟩ := Env.constName_eq (initFront ++ v.name) (w.env side)
    rw [Env.mkInitVar_of_none hv hfull] at he
    split at he
    · cases he
      first | exact hput _ | exact hw.put .. | exact hw
    · cases he

theorem entryGoal_records (h : entryGoal side v w = .ok c w₁) : Records side [v] w w₁ := by
  obtain ⟨t, u₁, ht, h₁⟩ := bind_ok h
  obtain ⟨i, u₂, hi, h₂⟩ := bind_ok h₁
  obtain ⟨p, -, rfl, -⟩ := equate_ok h₂
  have hr := (mkVar_records ht).trans (mkInitVar_records hi)
  exact ⟨by cases side <;> exact hr.entry, by cases side <;> exact hr.other,
    by cases side <;> exact hr.vars, by cases side <;> exact hr.inits⟩

theorem snapshot_records (h : snapshot side vars w = .ok gs w₁) : Records side vars w w₁ := by
  have hperm : ∀ v, v ∈ sortByName vars ↔ v ∈ vars := fun v => (List.mergeSort_perm ..).mem_iff
  suffices hall : Records side (sortByName vars) w w₁ from
    { hall with entry := fun {u} => by rw [hall.entry, hperm] }
  rw [snapshot_eq] at h
  generalize sortByName vars = vs at h
  induction vs generalizing w gs with
  | nil =>
    cases h
    exact .refl ..
  | cons v vs ih =>
    rw [List.mapM_cons] at h
    obtain ⟨d, u₁, hd, h₁⟩ := bind_ok h
    obtain ⟨ds, u₂, hds, h₂⟩ := bind_ok h₁
    cases h₂
    exact (entryGoal_records hd).trans (ih hds)

end Walk

/-! ### What is asked of a model -/

/-- Registers have equal values in both programs, and a text is true if it is not blank. -/
structure World.Asks (w : World) (vars : List Var) (text : String) (m : Model) : Prop where
  equal : w.scene.Equal vars m
  text : Compare.isBlankText text = false → w.Tells text m

theorem World.asks_congr {w w' : World} {vars : List Var} {text : String} {m : Model}
    (h : ∀ side, w'.env side = w.env side) : w'.Asks vars text m ↔ w.Asks vars text m := by
  have hs := scene_congr h
  have hd := declared_congr h
  constructor <;> rintro ⟨hequal, htext⟩ <;> refine ⟨?_, fun hblank => ?_⟩
  · exact hs ▸ hequal
  · obtain ⟨ps, hps, hall⟩ := htext hblank
    exact ⟨ps, hd ▸ hps, hall⟩
  · exact hs ▸ hequal
  · obtain ⟨ps, hps, hall⟩ := htext hblank
    exact ⟨ps, hd ▸ hps, hall⟩

namespace Compare

variable {K : Constr → Prop} {w w' : World} {c : Constr} {pre post : List Var} {orig mod : Blk}
  {postText hypText : String}

/-- The condition of a text, if there is one. -/
def condition (text : String) : Walk (List Constr) :=
  if isBlankText text then pure [] else do pure [← formulaForBoth text]

theorem still_condition (w : World) (text : String) :
    w.scene.Still (fun ds => (isBlankText text = false → w.Reads text) ∧ (∀ d ∈ ds, d.Proper) ∧
      ∀ m, (∀ d ∈ ds, d.truth m = true) ↔ (isBlankText text = false → w.Tells text m))
      (condition text) := by
  unfold condition
  split
  · rename_i hblank
    refine .pure ⟨fun h => ?_, nofun, fun m => ⟨fun _ h => ?_, fun _ => nofun⟩⟩ <;>
      cases hblank.symm.trans h
  · rename_i hblank
    rw [Bool.not_eq_true] at hblank
    refine (Scene.Still.formulaForBoth text).bind fun d hd => .pure ⟨fun _ => hd.1, ?_, fun m => ?_⟩
    · exact List.forall_mem_singleton.mpr hd.2.proper
    · rw [List.forall_mem_singleton, hd.2.truth m]
      exact ⟨fun h _ => h, fun h => h hblank⟩

theorem builds_condition (given : Constr → Prop) (text : String) :
    Builds given (condition text) id := by
  unfold condition
  split
  · exact .pure nofun
  · exact (Comparator.builds_formulaForBoth text).bind fun d => .pure fun e he => .inr he

/-- The variables of two blocks that are compared, and the registers. -/
def noted (b : Blk) (pre post : List Var) : List Var := (b.vars ++ pre ++ post).eraseDups

theorem mem_noted {b : Blk} {v : Var} :
    v ∈ noted b pre post ↔ v ∈ b.vars ∨ v ∈ pre ∨ v ∈ post := by
  rw [noted, List.mem_eraseDups, List.mem_append, List.mem_append, or_assoc]

/-- A comparison of two blocks up to their visits, and behind them. -/
structure Alone (K : Constr → Prop) (pre post : List Var) (orig mod : Blk)
    (postText hypText : String) (w : World) where
  {first second hyps : List Constr}
  {asked preMod preOrig hyp : Constr}
  {w₁ w₂ start w₃ w₄ w₅ : World}
  {K₁ : Constr → Prop}
  first_ok : snapshot .orig (noted orig pre post) w = .ok first w₁
  second_ok : snapshot .mod (noted mod pre post) w₁ = .ok second w₂
  built : Built K K₁ w start
  env (side : Side) : start.env side = w₂.env side
  asked_known : K₁ asked
  asked_truth (m : Model) : asked.truth m = true ↔ w₂.Asks post postText m
  hyps_known : ∀ d ∈ hyps, K₁ d
  hyps_truth (m : Model) : (∀ d ∈ hyps, d.truth m = true) ↔ w₂.Asks pre hypText m
  post_reads : isBlankText postText = false → w₂.Reads postText
  hyp_reads : isBlankText hypText = false → w₂.Reads hypText
  mod_ok : visitBlockAlone .mod asked mod start = .ok preMod w₃
  orig_ok : visitBlockAlone .orig preMod orig w₃ = .ok preOrig w₄
  hyp_ok : conjoin hyps w₄ = .ok hyp w₅

/-- The constraint of the comparison. -/
def Alone.result (a : Alone K pre post orig mod postText hypText w) : Constr :=
  .clause a.w₅.nodes [a.hyp] [a.preOrig]

def Alone.last (a : Alone K pre post orig mod postText hypText w) : World :=
  { a.w₅ with nodes := a.w₅.nodes + 1 }

theorem blocks_eq : blocks pre post orig mod postText hypText = (do
    let _ ← snapshot .orig (noted orig pre post)
    let _ ← snapshot .mod (noted mod pre post)
    let outputs ← PairRel.equalVars post "output"
    let inputs ← PairRel.equalVars pre "input"
    let posts ← condition postText
    let hyps ← condition hypText
    let preMod ← visitBlockAlone .mod (← conjoin (outputs :: posts)) mod
    let pre ← visitBlockAlone .orig preMod orig
    mkClause [← conjoin (inputs :: hyps)] [pre]) := by
  unfold blocks condition noted
  cases isBlankText postText <;> cases isBlankText hypText <;>
    simp only [if_true, Bool.false_eq_true, if_false, pure_bind, bind_assoc]

theorem blocks_alone (h : blocks pre post orig mod postText hypText w = .ok c w') :
    ∃ a : Alone K pre post orig mod postText hypText w, c = a.result ∧ w' = a.last := by
  rw [blocks_eq] at h
  obtain ⟨first, w₁, hfirst, h₁⟩ := bind_ok h
  obtain ⟨second, w₂, hsecond, h₂⟩ := bind_ok h₁
  obtain ⟨outputs, u₁, houtputs, h₃⟩ := bind_ok h₂
  obtain ⟨inputs, u₂, hinputs, h₄⟩ := bind_ok h₃
  obtain ⟨posts, u₃, hposts, h₅⟩ := bind_ok h₄
  obtain ⟨hyps, u₄, hhyps, h₆⟩ := bind_ok h₅
  obtain ⟨asked, start, hasked, h₇⟩ := bind_ok h₆
  obtain ⟨preMod, w₃, hmod, h₈⟩ := bind_ok h₇
  obtain ⟨preOrig, w₄, horig, h₉⟩ := bind_ok h₈
  obtain ⟨hyp, w₅, hhyp, h₁₀⟩ := bind_ok h₉
  obtain ⟨hc, hw'⟩ := mkClause_ok h₁₀
  -- all registers have constants when they are compared
  obtain ⟨hbinds, -⟩ := snapshot_ok hfirst
  obtain ⟨hbinds', -⟩ := snapshot_ok hsecond
  have horig₂ : w₂.env .orig = w₁.env .orig := hbinds'.other nofun
  have hbound {v : Var} (hv : v ∈ pre ∨ v ∈ post) : w₂.scene.Bound v := by
    have hnoted (b : Blk) := mem_noted.mpr (.inr hv : v ∈ b.vars ∨ v ∈ pre ∨ v ∈ post)
    intro side
    refine Option.ne_none_iff_exists'.mp (show (w₂.env side).vars.lookup v ≠ none from ?_)
    cases side with
    | orig => exact horig₂ ▸ hbinds.bound.mpr (.inl (hnoted orig))
    | mod => exact hbinds'.bound.mpr (.inl (hnoted mod))
  -- what is asked for is read where the snapshots have been made
  have hat₀ := w₂.scene_at
  have hout := Scene.Still.equalVars (fun v hv => hbound (.inr hv)) "output"
  have hin := Scene.Still.equalVars (fun v hv => hbound (.inl hv)) "input"
  obtain ⟨he₁, hmout⟩ := hout.run hat₀ houtputs
  have hat₁ := hout.keeps hat₀ houtputs
  obtain ⟨he₂, hmin⟩ := hin.run hat₁ hinputs
  have hat₂ := hin.keeps hat₁ hinputs
  obtain ⟨he₃, hreadp, hproperp, htellp⟩ := (still_condition w₂ postText).run hat₂ hposts
  have hat₃ := (still_condition w₂ postText).keeps hat₂ hposts
  obtain ⟨he₄, hreadh, hproperh, htellh⟩ := (still_condition w₂ hypText).run hat₃ hhyps
  have hat₄ := (still_condition w₂ hypText).keeps hat₃ hhyps
  obtain ⟨he₅, -⟩ := (Scene.Still.conjoin (outputs :: posts)).run hat₄ hasked
  -- what is built
  obtain ⟨K₁, hb₁, -⟩ := (builds_snapshot K .orig _).ok (fun _ => id) hfirst
  obtain ⟨K₂, hb₂, -⟩ := (builds_snapshot K₁ .mod _).ok (fun _ => id) hsecond
  obtain ⟨K₃, hb₃, hk₃⟩ := (PairRel.builds_equalVars post "output").ok (fun _ => id) houtputs
  obtain ⟨K₄, hb₄, hk₄⟩ := (PairRel.builds_equalVars pre "input").ok (fun _ => id) hinputs
  obtain ⟨K₅, hb₅, hk₅⟩ := (builds_condition K₄ postText).ok (fun _ => id) hposts
  obtain ⟨K₆, hb₆, hk₆⟩ := (builds_condition K₅ hypText).ok (fun _ => id) hhyps
  have hpost : ∀ d ∈ outputs :: posts, K₆ d := List.forall_mem_cons.mpr
    ⟨hb₆.grows (hb₅.grows (hb₄.grows (hk₃ _ (List.mem_singleton_self _)))), fun d hd => hb₆.grows (hk₅ d hd)⟩
  have hpre : ∀ d ∈ inputs :: hyps, K₆ d := List.forall_mem_cons.mpr
    ⟨hb₆.grows (hb₅.grows (hk₄ _ (List.mem_singleton_self _))), hk₆⟩
  obtain ⟨K₇, hb₇, hk₇⟩ := (Builds.conjoin hpost).ok (fun _ => id) hasked
  have hformal : ∀ d ∈ outputs :: posts, d.Formal := List.forall_mem_cons.mpr
    ⟨hmout.proper.formal, fun d hd => (hproperp d hd).formal⟩
  exact ⟨{
    first_ok := hfirst
    second_ok := hsecond
    built := ((((((hb₁.trans hb₂).trans hb₃).trans hb₄).trans hb₅).trans hb₆).trans hb₇)
    env := fun side => (he₅ side).trans ((he₄ side).trans ((he₃ side).trans ((he₂ side).trans (he₁ side))))
    asked_known := hk₇ _ (List.mem_singleton_self _)
    asked_truth := fun m => by
      rw [conjoin_truth hformal hasked, List.forall_mem_cons, hmout.truth, htellp]
      exact ⟨fun h => ⟨h.1, h.2⟩, fun h => ⟨h.equal, h.text⟩⟩
    hyps_known := fun d hd => hb₇.grows (hpre d hd)
    hyps_truth := fun m => by
      rw [List.forall_mem_cons, hmin.truth, htellh]
      exact ⟨fun h => ⟨h.1, h.2⟩, fun h => ⟨h.equal, h.text⟩⟩
    post_reads := hreadp
    hyp_reads := hreadh
    mod_ok := hmod
    orig_ok := horig
    hyp_ok := hhyp }, hc, hw'⟩

/-! ### One block after the other -/

/-- From one model to the other the definitions of both programs have been executed, each on its own
variables. The values at entry are the same. -/
structure Ran (w : World) (ds ds' : List Def) (m m' : Model) : Prop where
  orig : Assigns ds (w.state .orig m) (w.state .orig m')
  mod : Assigns ds' (w.state .mod m) (w.state .mod m')
  entry (side : Side) : m'.store (w.env side).inits = m.store (w.env side).inits

/-- The second precondition is for the first one, and each is for the definitions of one program. -/
theorem Apart.ran (ha : Apart w) (hn : ∀ side, (w.env side).Named) {ds ds' : List Def}
    {asked preMod preOrig : Constr}
    (hm : ∀ V, Table.Grows (w.env .mod).vars V → Separate V → ∀ m, Before V ds' preMod asked m)
    (ho : ∀ V, Table.Grows (w.env .orig).vars V → Separate V → ∀ m, Before V ds preOrig preMod m)
    (m : Model) : ∃ m', Ran w ds ds' m m' ∧ preOrig.truth m = asked.truth m' := by
  have hsep (side : Side) : Separate (w.env side).vars := (hn side).separate
  obtain ⟨m₁, hoff, hds, htruth⟩ := ho _ (.refl _) (hsep .orig) m
  obtain ⟨m₂, hoff', hds', htruth'⟩ := hm _ (.refl _) (hsep .mod) m₁
  have hinits {m m' : Model} {side side' : Side} (h : m.Off (w.env side).vars m') :
      m'.store (w.env side').inits = m.store (w.env side').inits :=
    h.store_eq (fun _ _ => ha.const side') fun _ _ _ => ha.inits side side'
  refine ⟨m₂, ⟨?_, ?_, fun side => (hinits hoff').trans (hinits hoff)⟩, htruth.trans htruth'⟩
  · rw [World.state, World.state,
      hoff'.store_eq (fun _ _ => (hsep .orig).const) fun _ _ _ hu hv => ha.vars hv hu]
    exact hds
  · rw [World.state, World.state,
      ← hoff.store_eq (fun _ _ => (hsep .mod).const) fun _ _ _ hu hv => ha.vars hu hv]
    exact hds'

/-- The constraint of a comparison: first the second program is walked for what is asked at the exits,
then the first program for the precondition of the second one. -/
theorem walks_truth {ds ds' : List Def} {K₁ K₂ K₃ K₄ : Constr → Prop} {w₁ w₂ w₃ : World}
    {asked preMod preOrig hyp : Constr} (hd : ∀ side, Default side w) (hK : Constr.Ledger K₁ w.nodes)
    (hm : Walked .mod False K₁ K₂ w w₁)
    (hmod : ∀ V, Table.Grows (w₁.env .mod).vars V → Separate V → ∀ m, Before V ds' preMod asked m)
    (ho : Walked .orig False K₂ K₃ w₁ w₂)
    (horig : ∀ V, Table.Grows (w₂.env .orig).vars V → Separate V → ∀ m, Before V ds preOrig preMod m)
    (hb : Built K₃ K₄ w₂ w₃) (hpre : K₃ preOrig) (hhyp : K₄ hyp) :
    (∀ side, (w.env side).Later False (World.env { w₃ with nodes := w₃.nodes + 1 } side)) ∧
      (∃ K', Constr.Ledger K' (w₃.nodes + 1) ∧ K' (.clause w₃.nodes [hyp] [preOrig])) ∧
      (Apart { w₃ with nodes := w₃.nodes + 1 } → ∀ m, ∃ m',
        Ran { w₃ with nodes := w₃.nodes + 1 } ds ds' m m' ∧
          ((Constr.clause w₃.nodes [hyp] [preOrig]).truth m = true ↔
            (hyp.truth m = true → asked.truth m' = true))) := by
  have horig₁ : w₁.env .orig = w.env .orig := hm.other nofun
  have hmod₂ : w₂.env .mod = w₁.env .mod := ho.other nofun
  have hlast (side : Side) :
      (w₂.env side).Later False (World.env { w₃ with nodes := w₃.nodes + 1 } side) := by
    cases side <;> exact hb.later _
  have hlater (side : Side) :
      (w.env side).Later False (World.env { w₃ with nodes := w₃.nodes + 1 } side) := by
    cases side with
    | orig => exact horig₁ ▸ ho.later.trans (hlast .orig)
    | mod => exact hm.later.trans (hmod₂ ▸ hlast .mod)
  have hK₄ := hb.ledger (ho.ledger (hm.ledger hK))
  have hpre₄ : K₄ preOrig := hb.grows hpre
  have hformal {d : Constr} (hd : K₄ d) : ∀ e ∈ [d], e.Formal :=
    fun e he => List.mem_singleton.mp he ▸ hK₄.formal hd
  refine ⟨hlater, ⟨_, hK₄.add (c := .clause w₃.nodes [hyp] [preOrig]) rfl
    (Constr.formal_clause (hformal hhyp) (hformal hpre₄)) fun d hd => ?_, .inr rfl⟩, fun ha m => ?_⟩
  · rcases List.mem_cons.mp hd with rfl | hd
    · exact hhyp
    · exact List.mem_singleton.mp hd ▸ hpre₄
  obtain ⟨m', hran, htruth⟩ := ha.ran (fun side => (hlater side).named (hd side).named)
    (fun V hV => hmod V ((hmod₂ ▸ (hlast .mod).vars).trans hV))
    (fun V hV => horig V ((hlast .orig).vars.trans hV)) m
  refine ⟨m', hran, ?_⟩
  rw [Constr.truth_clause (hformal hhyp) (hformal hpre₄), ← htruth]
  simp only [List.all_cons, List.all_nil, Bool.and_true, Bool.or_eq_true, Bool.not_eq_true']
  rw [← Bool.not_eq_true, imp_iff_not_or]

/-- The comparison of two blocks for which no preconditions are kept. -/
theorem Alone.truth (a : Alone K pre post orig mod postText hypText w) (ho : orig.Linear)
    (hm : mod.Linear) (hd : ∀ side, Default side w) (hK : Constr.Ledger K w.nodes)
    (hnew : (w.env .orig).precond? orig.tid (w.env .orig).frame.unroll = none)
    (hnew' : (w.env .mod).precond? mod.tid (w.env .mod).frame.unroll = none) :
    (∀ side, (a.w₂.env side).Later False (a.last.env side)) ∧
      (∃ K', Constr.Ledger K' a.last.nodes ∧ K' a.result) ∧ (Apart a.last → ∀ m, ∃ m',
        Ran a.last orig.defs mod.defs m m' ∧
          (a.result.truth m = true ↔ (a.w₂.Asks pre hypText m → a.w₂.Asks post postText m'))) := by
  have hd₁ (side : Side) : Default side a.start := (hd side).later (a.built.later side)
  have hK₁ := a.built.ledger hK
  obtain ⟨K₂, hw₃, hk₂, -, -, hmod⟩ := visitBlockAlone_ok hm (hd₁ .mod) hK₁ a.asked_known
    (by rw [Env.precond?, (a.built.stays .mod).frame]; exact hnew') a.mod_ok
  have horig₃ : a.w₃.env .orig = a.start.env .orig := hw₃.other (by decide)
  have hl₃ : (w.env .orig).Later False (a.w₃.env .orig) := horig₃ ▸ a.built.later .orig
  obtain ⟨K₃, hw₄, hk₃, -, -, horig⟩ := visitBlockAlone_ok ho ((hd .orig).later hl₃)
    (hw₃.ledger hK₁) hk₂
    (by rw [Env.precond?, horig₃, (a.built.stays .orig).frame]; exact hnew) a.orig_ok
  have hknown : ∀ d ∈ a.hyps, K₃ d := fun d hd => hw₄.grows (hw₃.grows (a.hyps_known d hd))
  obtain ⟨K₄, hb₅, hk₅⟩ := (Builds.conjoin hknown).ok (fun _ => id) a.hyp_ok
  obtain ⟨hlater, hledger, htruth⟩ := walks_truth hd₁ hK₁ hw₃ hmod hw₄ horig hb₅ hk₃
    (hk₅ _ (List.mem_singleton_self _))
  refine ⟨fun side => a.env side ▸ hlater side, hledger, fun ha m => ?_⟩
  obtain ⟨m', hran, hiff⟩ := htruth ha m
  have hhyps : ∀ d ∈ a.hyps, d.Formal :=
    fun d hd => (hw₄.ledger (hw₃.ledger hK₁)).formal (hknown d hd)
  refine ⟨m', hran, hiff.trans ?_⟩
  rw [conjoin_truth hhyps a.hyp_ok, a.hyps_truth, a.asked_truth]

end Compare

end Precond

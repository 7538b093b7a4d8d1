import Precond.Proofs.Run.Choices
import Precond.Proofs.Walk.Hooks
import Precond.Proofs.Walk.Plain
import Precond.Proofs.Walk.Sub

/-! Subroutines with side conditions, backwards, against what runs read. The precondition of a
definition accepts the reading of its right side, and that of a jump the reading of its condition
(`Walk.visitDefs_accepts`, `Walk.visitJump_accepts`); so the precondition of a block accepts all that the
run from the block on reads, up to what holds at the return (`Walk.Course`). From jumps this is carried to
blocks as anything is that is asked of the choice at a jump (`Walk.visitBlk_judges`), and from blocks to
subroutines as anything is that follows from the blocks that control goes to (`Walk.Account`).
Preconditions are not kept here: the walk is the one that makes them anew (`Walk.plainNode_tells`). -/

namespace Precond

open IR Precond.Flow

/-- A block without phis, unknown expressions and calls. -/
structure IR.Blk.Direct (b : Blk) : Prop where
  phis : b.phis = []
  known : b.known
  calls : j ∈ b.jumps → j.kind ≠ .call target ret

theorem IR.Blk.Direct.way? {b : Blk} {j : Jump} {f : String} {back : Option String} (h : b.Direct)
    (hj : j ∈ b.jumps) : j.way? ≠ some (.call f back) := by
  have hcalls {target : Label} {ret : Option Label} : j.kind ≠ .call target ret := h.calls hj
  obtain ⟨kind, cond, tid⟩ := j
  cases kind with
  | call target ret => exact absurd rfl hcalls
  | goto target => cases target <;> nofun
  | ret | interrupt => nofun

namespace Walk

/-- Local side rules ask for these conditions. -/
structure Asking (side : Side) (asks : Store → Exp → Duty → Bool → Prop) (w : World) : Prop where
  isLocal : ∀ r ∈ (w.env side).sideRules, r.isLocal
  asks : Demands ⟨(w.env side).stack, (w.env side).heap⟩ (w.env side).sideRules = asks

/-- Local side rules ask for these conditions, and no jump is forced. -/
structure Checking (side : Side) (asks : Store → Exp → Duty → Bool → Prop) (w : World) : Prop where
  isLocal : ∀ r ∈ (w.env side).sideRules, r.isLocal
  asks : Demands ⟨(w.env side).stack, (w.env side).heap⟩ (w.env side).sideRules = asks
  reach : (w.env side).reach = []

variable {S : Scope} {side : Side} {asks : Store → Exp → Duty → Bool → Prop} {w w₁ : World}
  {expand : Expand} {V : Table Var SomeTerm} {post ret c : Constr} {s : Sub} {b : Blk}

theorem Checking.asking (h : Checking side asks w) : Asking side asks w := ⟨h.isLocal, h.asks⟩

theorem Checking.unforced (h : Checking side asks w) (j : Jump) : forced? (w.env side) j = none := by
  rw [forced?, h.reach]
  rfl

theorem Asking.of_policy (h : Asking side asks w)
    (hp : (w₁.env side).policy = (w.env side).policy) : Asking side asks w₁ := by
  have hrules := congrArg Env.sideRules hp
  have hstack := congrArg Env.stack hp
  have hheap := congrArg Env.heap hp
  simp only [Env.policy] at hrules hstack hheap
  exact ⟨hrules ▸ h.isLocal, by rw [hrules, hstack, hheap, h.asks]⟩

theorem Asking.before (h : Asking side asks w) (hw : w.Before w₁) : Asking side asks w₁ :=
  h.of_policy (hw side).policy

theorem Checking.of_policy (h : Checking side asks w)
    (hp : (w₁.env side).policy = (w.env side).policy) : Checking side asks w₁ := by
  have hreach := congrArg Env.reach hp
  have hasking := h.asking.of_policy hp
  exact ⟨hasking.isLocal, hasking.asks, hreach.trans h.reach⟩

theorem Checking.before (h : Checking side asks w) (hw : w.Before w₁) : Checking side asks w₁ :=
  h.of_policy (hw side).policy

theorem drawn_named (h : w.Drawn side w₁) (hn : (w.env side).Named) : (w₁.env side).Named := by
  obtain ⟨names, he, hs, hle⟩ := h.env
  rw [he]
  exact hn.mono rfl rfl hs hle

/-! ### Definitions -/

/-- A constraint accepts of a state what definitions read, up to what another one says of the state
after them. -/
def Heeds (asks : Store → Exp → Duty → Bool → Prop) (V : Table Var SomeTerm) (ds : List Def)
    (c post : Constr) (m : Model) : Prop :=
  ∃ m' reads, m.Off V m' ∧ Defines ds (m.store V) reads (m'.store V) ∧
    (c.truth m = true ↔ Accepts asks reads (post.truth m' = true))

theorem assign_accepts {d : Def} (hs : S.body side s) (hw : w.Under S) (hc : Asking side asks w)
    (hk : d.rhs.known) (hpost : post.Formal) (h : assign side post d.lhs d.rhs w = .ok c w₁) :
    ((w.env side).Named → (w₁.env side).Named) ∧ c.Formal ∧
      (Table.Grows (w₁.env side).vars V → Separate V → ∀ m, Heeds asks V [d] c post m) := by
  have hkept := (Keeps.assign hs (.inr hk) post d.lhs).of_ok hw h
  obtain ⟨⟨⟨s, x⟩, hooks⟩, w₂, hvalue, h₁⟩ := bind_ok h
  obtain ⟨hd, hst, htells⟩ := translateChecked_tells hk hc.isLocal hvalue
  obtain ⟨⟨s', old⟩, w₃, hold, h₂⟩ := bind_ok h₁
  obtain ⟨e, he, rfl⟩ := on_ok hold
  obtain ⟨hlater, hlook, -⟩ := Env.Later.mkVar True he
  by_cases hsort : s ≠ s'
  · rw [if_pos hsort] at h₂
    cases h₂
  rw [if_neg hsort, htells.select_after, htells.select_after] at h₂
  obtain rfl : s = s' := not_not.mp hsort
  obtain ⟨post', w₄, hguard, h₃⟩ := bind_ok h₂
  cases hguard
  obtain ⟨c', w₅, hsub, h₄⟩ := bind_ok h₃
  obtain ⟨rfl, rfl⟩ := substitute_ok hsub
  obtain ⟨henv, hformal, htruth⟩ := guard_ok (Constr.formal_subst hpost old x) h₄
  have hfinal : w₁.env side = e := (henv side).trans (by cases side <;> rfl)
  refine ⟨fun hn => hfinal ▸ hlater.named (drawn_named hd hn), hformal, fun hV hsep m => ?_⟩
  have hbefore : Table.Grows (w.env side).vars V := (hkept.env side).vars.trans hV
  have hold := hV _ _ (hfinal ▸ hlook)
  obtain ⟨n, s', heq⟩ := hsep.const hold
  cases heq
  refine ⟨m.withConst n x, [(m.store V, d.rhs)], Model.off_withConst hold m x, ?_, ?_⟩
  · refine .cons (hst V hbefore m) ?_
    rw [Model.store_withConst hsep hold]
    exact .nil
  · rw [htruth, htells.guards hbefore, hc.asks, Constr.truth_subst hpost n x]
    exact Iff.rfl

/-- The precondition of a list of definitions accepts what they read. -/
theorem visitDefs_accepts (hx : Keeps.Expands S side expand) (hs : S.body side s) (hb : b ∈ s.blks)
    {ds : List Def} (hds : ∀ d ∈ ds, d ∈ b.defs ∧ d.rhs.known) (hw : w.Under S)
    (hc : Asking side asks w) (hpost : post.Formal)
    (h : visitElts expand side post (ds.map .define) w = .ok c w₁) :
    ((w.env side).Named → (w₁.env side).Named) ∧ c.Formal ∧
      (Table.Grows (w₁.env side).vars V → Separate V → ∀ m, Heeds asks V ds c post m) := by
  induction ds generalizing c w₁ with
  | nil =>
    cases h
    exact ⟨id, hpost, fun _ _ m => ⟨m, [], .refl .., .nil, Iff.rfl⟩⟩
  | cons d ds ih =>
    obtain ⟨mid, w₂, hmid, h₁⟩ := bind_ok h
    have hrest : ∀ d' ∈ ds, d' ∈ b.defs ∧ d'.rhs.known := fun d' hd' =>
      hds d' (List.mem_cons_of_mem d hd')
    obtain ⟨hn₂, hformal₂, hheeds₂⟩ := ih hrest hmid
    have helts : ∀ x ∈ ds.map Elt.define, x ∈ b.elts := by
      intro x hx'
      obtain ⟨d', hd', rfl⟩ := List.mem_map.mp hx'
      exact List.mem_append_left _ (List.mem_append_right _ (List.mem_map_of_mem (hrest d' hd').1))
    have hk₂ := (Keeps.visitElts hx hs hb helts post).of_ok hw hmid
    have hknown := (hds d List.mem_cons_self).2
    obtain ⟨hn₁, hformal₁, hheeds₁⟩ :=
      assign_accepts hs (hk₂.under hw) (hc.before hk₂.before) hknown hformal₂ h₁
    have hk₁ := (Keeps.assign hs (.inr hknown) mid d.lhs).of_ok (hk₂.under hw) h₁
    refine ⟨fun hn => hn₁ (hn₂ hn), hformal₁, fun hV hsep m => ?_⟩
    obtain ⟨m₁, reads₁, ho₁, hd₁, ht₁⟩ := hheeds₁ hV hsep m
    obtain ⟨m₂, reads₂, ho₂, hd₂, ht₂⟩ := hheeds₂ ((hk₁.env side).vars.trans hV) hsep m₁
    refine ⟨m₂, reads₁ ++ reads₂, ho₁.trans ho₂, ?_, ?_⟩
    · cases hd₁ with
      | cons hx hnil =>
        generalize m₁.store V = σ at hnil hd₂
        cases hnil
        exact .cons hx hd₂
    · rw [ht₁, accepts_append]
      exact accepts_congr _ ht₂

/-! ### Jumps -/

/-- What holds at the return and at the blocks of the subroutine. -/
structure Aims (side : Side) (targets : Table String Constr) (ret : Constr) (w : World) : Prop where
  retPost : (w.env side).frame.retPost = some ret
  table : (w.env side).frame.targets = targets
  retFormal : ret.Formal
  formal : targets.lookup t = some k → k.Formal

variable {targets : Table String Constr} {j : Jump}

theorem Aims.stays (h : Aims side targets ret w)
    (hf : (w₁.env side).frame = (w.env side).frame) : Aims side targets ret w₁ :=
  { h with retPost := hf ▸ h.retPost, table := hf ▸ h.table }

theorem targetPre_aims {t : String} (ha : Aims side targets ret w) (hpost : post.Formal)
    (h : targetPre side (.direct t) post w = .ok c w₁) :
    w₁ = w ∧ c.Formal ∧ c = (targets.lookup t).getD post := by
  obtain ⟨e, w₂, he, h₁⟩ := bind_ok h
  obtain ⟨rfl, rfl⟩ := env_ok he
  cases h₁
  rw [ha.table]
  refine ⟨rfl, ?_, rfl⟩
  cases hk : targets.lookup t with
  | some k => exact ha.formal hk
  | none => exact hpost

theorem returnPre_aims (ha : Aims side targets ret w) (h : returnPre side post w = .ok c w₁) :
    w₁ = w ∧ c = ret := by
  obtain ⟨e, w₂, he, h₁⟩ := bind_ok h
  obtain ⟨rfl, rfl⟩ := env_ok he
  cases h₁
  rw [ha.retPost]
  exact ⟨rfl, rfl⟩

/-- What holds where a jump leads that is no call. -/
theorem jumpPre_aims (hj : ∀ target back, j.kind ≠ .call target back) (ha : Aims side targets ret w)
    (hpost : post.Formal) (h : jumpPre expand side post j w = .ok c w₁) :
    ((w.env side).Named → (w₁.env side).Named) ∧ c.Formal ∧
      ∀ way, j.way? = some way → ∀ m, Follows V [] targets ret m (c.truth m) way := by
  obtain ⟨kind, cond, tid⟩ := j
  unfold jumpPre at h
  cases kind with
  | goto target =>
    cases target with
    | indirect a =>
      obtain ⟨u, w₂, hu, h₁⟩ := bind_ok h
      obtain ⟨e, he, rfl⟩ := on_ok hu
      obtain rfl := Env.note_ok he
      cases h₁
      refine ⟨fun hn => ?_, hpost, nofun⟩
      rw [World.env_setEnv]
      exact hn.mono rfl rfl rfl (Nat.le_refl _)
    | direct t =>
      obtain ⟨rfl, hformal, hc⟩ := targetPre_aims ha hpost h
      refine ⟨id, hformal, fun way hway m => ?_⟩
      cases hway
      exact fun k hk => by rw [hc, hk]; rfl
  | ret l =>
    obtain ⟨rfl, rfl⟩ := returnPre_aims ha h
    refine ⟨id, ha.retFormal, fun way hway m => ?_⟩
    cases hway
    rfl
  | interrupt n back =>
    obtain ⟨rfl, hformal, -⟩ := targetPre_aims ha hpost h
    exact ⟨id, hformal, nofun⟩
  | call target back => exact absurd rfl (hj target back)

/-- What the precondition of a jump says of a state, if `R` is asked of the choice there and of what holds
where control goes from the jump. -/
def Judges (R : Store → Choice → Prop → Prop) (V : Table Var SomeTerm) (targets : Table String Constr)
    (ret : Constr) (j : Jump) (c post : Constr) (m : Model) : Prop :=
  ∃ x taken after, j.cond.Yields (m.store V) x ∧ x.nonZero? = some taken ∧
    (∀ way, j.way? = some way → Follows V [] targets ret m after way) ∧
    (c.truth m = true ↔ R (m.store V) ⟨j, taken⟩ ((if taken then after else post.truth m) = true))

/-- The reading of the condition of a jump is accepted, up to what holds where control goes from it. -/
def accepting (asks : Store → Exp → Duty → Bool → Prop) (σ : Store) (choice : Choice) (last : Prop) : Prop :=
  Accepts asks (choice.jump.readings σ) last

theorem accepting_foldr (σ : Store) (cs : List Choice) (last : Prop) :
    cs.foldr (accepting asks σ) last ↔ Accepts asks (cs.flatMap fun c => c.jump.readings σ) last := by
  induction cs with
  | nil => exact Iff.rfl
  | cons c cs ih =>
    rw [List.flatMap_cons, accepts_append, List.foldr_cons]
    exact accepts_congr _ ih

/-- A jump that is not forced accepts the reading of its condition, up to what holds where it leads or
behind it. -/
theorem visitJump_accepts (hx : Keeps.Expands S side expand) (hs : S.body side s) (hb : b ∈ s.blks)
    (hmem : j ∈ b.jumps) (hdirect : b.Direct) (hw : w.Under S) (hc : Asking side asks w)
    (hforced : forced? (w.env side) j = none) (ha : Aims side targets ret w) (hpost : post.Formal)
    (h : visitJump expand side post j w = .ok c w₁) :
    ((w.env side).Named → (w₁.env side).Named) ∧ c.Formal ∧
      (Table.Grows (w₁.env side).vars V → ∀ m, Judges (accepting asks) V targets ret j c post m) := by
  have hknown : j.cond.known :=
    List.all_eq_true.mp (Bool.and_eq_true_iff.mp hdirect.known).2 j hmem
  have helt : Elt.jump j ∈ b.elts := List.mem_append_right _ (List.mem_map_of_mem hmem)
  have hkept := (Keeps.visitJump hx hs hb helt post).of_ok hw h
  obtain ⟨e₀, w₀, he₀, h₁⟩ := bind_ok h
  obtain ⟨rfl, rfl⟩ := env_ok he₀
  rw [hforced] at h₁
  obtain ⟨after, w₂, hafter, h₂⟩ := bind_ok h₁
  have hk₂ := (Keeps.jumpPre hx hs hb helt post).of_ok hw hafter
  obtain ⟨hn₂, hformal₂, hfollow⟩ :=
    jumpPre_aims (V := V) (fun _ _ => hdirect.calls hmem) ha hpost hafter
  by_cases hcond : j.cond = Exp.always
  · rw [if_pos hcond] at h₂
    cases h₂
    refine ⟨hn₂, hformal₂, fun _ m => ⟨.word 1#1, true, c.truth m, ?_, rfl, fun way hway =>
      hfollow way hway m, ?_⟩⟩
    · rw [hcond]
      exact .always
    · rw [accepting, Jump.readings, if_pos hcond]
      exact Iff.rfl
  rw [if_neg hcond] at h₂
  obtain ⟨⟨x, hooks⟩, w₃, hx₃, h₃⟩ := bind_ok h₂
  obtain ⟨hd, hst, htells⟩ := translateChecked_tells hknown (hc.before hk₂.before).isLocal hx₃
  obtain ⟨p, w₄, hp₄, h₄⟩ := bind_ok h₃
  obtain ⟨hp, rfl⟩ := ofExcept_ok hp₄
  obtain ⟨pre, w₅, hpre, h₅⟩ := bind_ok h₄
  obtain ⟨rfl, rfl⟩ := mkBranch_ok hpre
  rw [htells.select_after, htells.select_after, List.append_nil, List.append_nil] at h₅
  obtain ⟨henv, hformal, htruth⟩ := guard_ok (Constr.formal_branch hformal₂ hpost) h₅
  have hfinal : w₁.env side = w₄.env side := (henv side).trans (by cases side <;> rfl)
  refine ⟨fun hn => hfinal ▸ drawn_named hd (hn₂ hn), hformal, fun hV m => ?_⟩
  have hbefore : Table.Grows (w₂.env side).vars V := by
    rw [← hd.vars, ← hfinal]
    exact hV
  refine ⟨x.value m, p.holds m, after.truth m, hst V hbefore m, SomeTerm.condition_value hp,
    fun way hway => hfollow way hway m, ?_⟩
  rw [accepting, Jump.readings, if_neg hcond, htruth, htells.guards hbefore,
    (hc.before hk₂.before).asks, Constr.truth_branch hformal₂ hpost]
  exact Iff.rfl

/-- What is said where the jumps of a block lead, or behind them. -/
def Arrives (V : Table Var SomeTerm) (targets : Table String Constr) (ret post : Constr) (m : Model)
    (last : Bool) : Option Jump → Prop
  | some j => ∀ way, j.way? = some way → Follows V [] targets ret m last way
  | none => last = post.truth m

section

variable {K : World → Prop} {R : Store → Choice → Prop → Prop} (hx : Keeps.Expands S side expand)
  (hs : S.body side s) (hb : b ∈ s.blks) (hdirect : b.Direct)
  (hkind : ∀ {w w₁ : World}, K w → w.Before w₁ → K w₁)
  (hjump : ∀ {j post c w w₁}, j ∈ b.jumps → w.Under S → K w → Aims side targets ret w →
    post.Formal → visitJump expand side post j w = .ok c w₁ →
      ((w.env side).Named → (w₁.env side).Named) ∧ c.Formal ∧
        (Table.Grows (w₁.env side).vars V → ∀ m, Judges R V targets ret j c post m))

include hx hs hb hkind hjump

/-- What is asked at each of the jumps of a block is asked of the choices there, and of what holds where
the taken jump leads. -/
theorem visitJumps_judges {js : List Jump} (hjs : ∀ j ∈ js, j ∈ b.jumps) (hw : w.Under S) (hk : K w)
    (ha : Aims side targets ret w) (hpost : post.Formal)
    (h : visitElts expand side post (js.map .jump) w = .ok c w₁) :
    ((w.env side).Named → (w₁.env side).Named) ∧ c.Formal ∧
      (Table.Grows (w₁.env side).vars V → ∀ m, ∃ cs taken last,
        Decides (m.store V) js cs taken ∧ Arrives V targets ret post m last taken ∧
        (c.truth m = true ↔ cs.foldr (R (m.store V)) (last = true))) := by
  induction js generalizing c w₁ with
  | nil =>
    cases h
    exact ⟨id, hpost, fun _ m => ⟨[], none, _, .nil, rfl, Iff.rfl⟩⟩
  | cons j js ih =>
    obtain ⟨mid, w₂, hmid, h₁⟩ := bind_ok h
    have hrest : ∀ j' ∈ js, j' ∈ b.jumps := fun j' hj' => hjs j' (List.mem_cons_of_mem j hj')
    obtain ⟨hn₂, hformal₂, hjudges₂⟩ := ih hrest hmid
    have helts : ∀ x ∈ js.map Elt.jump, x ∈ b.elts := by
      intro x hx'
      obtain ⟨j', hj', rfl⟩ := List.mem_map.mp hx'
      exact List.mem_append_right _ (List.mem_map_of_mem (hrest j' hj'))
    have hk₂ := (Keeps.visitElts hx hs hb helts post).of_ok hw hmid
    have hmem := hjs j List.mem_cons_self
    obtain ⟨hn₁, hformal₁, hjudges₁⟩ := hjump hmem (hk₂.under hw) (hkind hk hk₂.before)
      (ha.stays (hk₂.env side).frame.symm) hformal₂ h₁
    have hk₁ := (Keeps.visitJump hx hs hb
      (List.mem_append_right _ (List.mem_map_of_mem hmem)) mid).of_ok (hk₂.under hw) h₁
    refine ⟨fun hn => hn₁ (hn₂ hn), hformal₁, fun hV m => ?_⟩
    obtain ⟨x, taken, after, hy, hz, hfollow, ht₁⟩ := hjudges₁ hV m
    cases taken with
    | true => exact ⟨_, some j, after, .this hy hz, hfollow, ht₁⟩
    | false =>
      obtain ⟨cs, taken, last, hd, harrives, ht₂⟩ := hjudges₂ ((hk₁.env side).vars.trans hV) m
      refine ⟨_, taken, last, .next hy hz hd, harrives, ht₁.trans ?_⟩
      rw [List.foldr_cons, ← propext ht₂]
      exact Iff.rfl

include hdirect

/-- What the definitions of a block read is accepted, up to what is asked of the choices at its jumps and
of what holds where control goes from it. -/
theorem visitBlk_judges (hasking : ∀ {w}, K w → Asking side asks w) (hw : w.Under S) (hk : K w)
    (ha : Aims side targets ret w) (hpost : post.Formal)
    (h : visitElts expand side post b.elts w = .ok c w₁) :
    ((w.env side).Named → (w₁.env side).Named) ∧ c.Formal ∧
      (Table.Grows (w₁.env side).vars V → Separate V → ∀ m, ∃ m' reads cs taken last,
        m.Off V m' ∧ Defines b.defs (m.store V) reads (m'.store V) ∧
        Decides (m'.store V) b.jumps cs taken ∧ Arrives V targets ret post m' last taken ∧
        (c.truth m = true ↔ Accepts asks reads (cs.foldr (R (m'.store V)) (last = true)))) := by
  have hjumps : ∀ x ∈ b.jumps.map Elt.jump, x ∈ b.elts := fun x hx' => List.mem_append_right _ hx'
  have hdefs : ∀ x ∈ b.defs.map Elt.define, x ∈ b.elts := fun x hx' =>
    List.mem_append_left _ (List.mem_append_right _ hx')
  have hknown := (Bool.and_eq_true_iff.mp hdirect.known).1
  rw [Blk.elts, hdirect.phis] at h
  obtain ⟨mid, w₂, hmid, h₁⟩ := visitElts_append h
  have hk₂ := (Keeps.visitElts hx hs hb hjumps post).of_ok hw hmid
  obtain ⟨hn₂, hformal₂, hjudges⟩ :=
    visitJumps_judges hx hs hb hkind hjump (fun _ h => h) hw hk ha hpost hmid
  obtain ⟨hn₁, hformal₁, hheeds⟩ := visitDefs_accepts (V := V) hx hs hb
    (fun d hd => ⟨hd, List.all_eq_true.mp hknown d hd⟩) (hk₂.under hw)
    (hasking (hkind hk hk₂.before)) hformal₂ h₁
  have hk₁ := (Keeps.visitElts hx hs hb hdefs mid).of_ok (hk₂.under hw) h₁
  refine ⟨fun hn => hn₁ (hn₂ hn), hformal₁, fun hV hsep m => ?_⟩
  obtain ⟨m', reads, ho, hd, ht⟩ := hheeds hV hsep m
  obtain ⟨cs, taken, last, hdec, harrives, ht'⟩ := hjudges ((hk₁.env side).vars.trans hV) m'
  exact ⟨m', reads, cs, taken, last, ho, hd, hdec, harrives, ht.trans (accepts_congr _ ht')⟩

end

/-- A block accepts what it reads, up to what holds where control goes from it. -/
theorem visitBlk_accepts (hx : Keeps.Expands S side expand) (hs : S.body side s) (hb : b ∈ s.blks)
    (hdirect : b.Direct) (hw : w.Under S) (hc : Checking side asks w) (ha : Aims side targets ret w)
    (hpost : post.Formal) (h : visitElts expand side post b.elts w = .ok c w₁) :
    ((w.env side).Named → (w₁.env side).Named) ∧ c.Formal ∧
      (Table.Grows (w₁.env side).vars V → Separate V → ∀ m, ∃ m' reads reads' taken last,
        m.Off V m' ∧ Defines b.defs (m.store V) reads (m'.store V) ∧
        Selects (m'.store V) b.jumps reads' taken ∧ Arrives V targets ret post m' last taken ∧
        (c.truth m = true ↔ Accepts asks (reads ++ reads') (last = true))) := by
  obtain ⟨hn, hformal, hjudges⟩ := visitBlk_judges (V := V) (K := Checking side asks) hx hs hb hdirect
    Checking.before (fun hmem hw hc ha hpost h => visitJump_accepts hx hs hb hmem hdirect hw hc.asking
      (hc.unforced _) ha hpost h) Checking.asking hw hc ha hpost h
  refine ⟨hn, hformal, fun hV hsep m => ?_⟩
  obtain ⟨m', reads, cs, taken, last, ho, hd, hdec, harrives, ht⟩ := hjudges hV hsep m
  refine ⟨m', reads, _, taken, last, ho, hd, hdec.selects, harrives, ?_⟩
  rw [ht, accepts_append]
  exact accepts_congr _ (accepting_foldr ..)

/-! ### Copies of blocks -/

/-- The precondition of a block accepts what the run from the block on reads, up to what holds at the
return if it returns. -/
def Course (asks : Store → Exp → Duty → Bool → Prop) (s : Sub) (ret : Constr) (V : Table Var SomeTerm)
    (t : String) (c : Constr) (m : Model) : Prop :=
  ∃ reads o last, s.Passes t (m.store V) reads o ∧
    (c.truth m = true ↔ Accepts asks reads (last = true)) ∧
    ∀ σ, o = some σ → ∃ m', m.Off V m' ∧ m'.store V = σ ∧ last = ret.truth m'

/-- The precondition of a block in all later tables of variables. -/
def Courses (asks : Store → Exp → Duty → Bool → Prop) (s : Sub) (ret : Constr)
    (T : Table Var SomeTerm) (t : String) (c : Constr) : Prop :=
  c.Formal ∧ ∀ V, Table.Grows T V → Separate V → ∀ m, Course asks s ret V t c m

theorem Courses.grows {T T' : Table Var SomeTerm} {t : String} (h : Courses asks s ret T t c)
    (hT : Table.Grows T T') : Courses asks s ret T' t c :=
  ⟨h.1, fun V hV => h.2 V (hT.trans hV)⟩

/-- From a block that goes on at another one, what is read is followed by what that one reads. -/
theorem Course.goto {behind : Option String} {t u : String} {m m' : Model} {reads : List Reading}
    {last : Bool} (hp : s.at? t = some (b, behind)) (ho : m.Off V m')
    (hb : b.Passes behind (m.store V) reads (some (.goto u)) (m'.store V))
    (ht : c.truth m = true ↔ Accepts asks reads (last = true))
    (hnext : (s.at? u).isSome → ∃ k, last = k.truth m' ∧ Course asks s ret V u k m') :
    Course asks s ret V t c m := by
  cases hu : s.at? u with
  | none =>
    refine ⟨reads ++ [], none, last, .goto hp hb (.stray hu), ?_, nofun⟩
    rw [List.append_nil]
    exact ht
  | some p =>
    obtain ⟨k, rfl, reads', o, last', hpass, hk, hlast⟩ := hnext (hu ▸ rfl)
    refine ⟨reads ++ reads', o, last', .goto hp hb hpass, ?_, fun σ hσ => ?_⟩
    · rw [ht, accepts_append]
      exact accepts_congr _ hk
    · obtain ⟨m₁, ho₁, hσ₁, hm₁⟩ := hlast σ hσ
      exact ⟨m₁, ho.trans ho₁, hσ₁, hm₁⟩

/-- The precondition of a block from those of the blocks that it leads to. -/
theorem course_of_block {g : Graph} {T : Table Var SomeTerm} {n : Option String} {t : String}
    {m m' : Model} {reads reads' : List Reading} {taken : Option Jump} {last : Bool} (hg : g.Of s)
    (hp : s.at? t = some (b, n)) (hdirect : b.Direct)
    (hnext : ∀ x k, targets.lookup x = some k → Courses asks s ret T x k)
    (hsome : ∀ x ∈ g.succsOf t, (targets.lookup x).isSome)
    (htrails : Trails targets ret post (behind? (b, n))) (hV : Table.Grows T V) (hsep : Separate V) (ho : m.Off V m')
    (hd : Defines b.defs (m.store V) reads (m'.store V))
    (hsel : Selects (m'.store V) b.jumps reads' taken)
    (harrives : Arrives V targets ret post m' last taken)
    (ht : c.truth m = true ↔ Accepts asks (reads ++ reads') (last = true)) :
    Course asks s ret V t c m := by
  cases taken with
  | some j =>
    have hpass : b.Passes n (m.store V) (reads ++ reads') j.way? (m'.store V) := .jump hd hsel
    cases hway : j.way? with
    | none =>
      rw [hway] at hpass
      exact ⟨_, none, last, .away hp hpass, ht, nofun⟩
    | some way =>
      rw [hway] at hpass
      have hfollow := harrives way hway
      cases way with
      | out => exact ⟨_, _, last, .out hp hpass, ht, fun σ hσ => ⟨m', ho, Option.some.inj hσ, hfollow⟩⟩
      | goto u =>
        refine .goto hp ho hpass ht fun hu => ?_
        have hmem := hg.mem_succsOf_of_jump hp hsel.takes.mem (Jump.target?_of_way hway rfl) hu
        obtain ⟨k, hk⟩ := Option.isSome_iff_exists.mp (hsome u hmem)
        exact ⟨k, hfollow k hk, (hnext u k hk).2 V hV hsep m'⟩
      | call f back => exact absurd hway (hdirect.way? hsel.takes.mem)
  | none =>
    rw [behind?, if_pos hsel.takes.fallsThrough] at htrails
    cases n with
    | none =>
      cases htrails
      exact ⟨_, _, last, .out hp (.last hd hsel), ht, fun σ hσ => ⟨m', ho, Option.some.inj hσ, harrives⟩⟩
    | some u =>
      refine .goto hp ho (.next hd hsel) ht fun _ => ?_
      exact ⟨post, harrives, (hnext u post htrails).2 V hV hsep m'⟩

/-! ### From blocks to subroutines -/

/-- What is said of the preconditions of blocks, in a table of variables, where walks are of some kind.
It is so in later tables too, and of which kind a walk is depends on its policy. -/
structure Account (side : Side) where
  kind : World → Prop
  tells : Table Var SomeTerm → String → Constr → Prop
  policy {w w₁ : World} : kind w → (w₁.env side).policy = (w.env side).policy → kind w₁
  formal {T : Table Var SomeTerm} {t : String} {c : Constr} : tells T t c → c.Formal
  grows {T T' : Table Var SomeTerm} {t : String} {c : Constr} : tells T t c → Table.Grows T T' →
    tells T' t c

variable {A : Account side}

/-- The walk is in a subroutine. -/
structure Inside (A : Account side) (S : Scope) (g : Graph) (ret : Constr) (w : World) : Prop where
  under : w.Under S
  kind : A.kind w
  graph : (w.env side).frame.graph = some g
  retPost : (w.env side).frame.retPost = some ret

/-- The walk has come further within a subroutine. -/
structure Further (A : Account side) (S : Scope) (g : Graph) (ret : Constr) (w w₁ : World) : Prop
    extends Inside A S g ret w₁ where
  vars : Table.Grows (w.env side).vars (w₁.env side).vars
  named : (w.env side).Named → (w₁.env side).Named

variable {g : Graph} {w₂ : World} {u : Unroll}

theorem Inside.refl (h : Inside A S g ret w) : Further A S g ret w w := ⟨h, .refl _, id⟩

theorem Further.trans (h₁ : Further A S g ret w w₁) (h₂ : Further A S g ret w₁ w₂) :
    Further A S g ret w w₂ :=
  ⟨h₂.toInside, h₁.vars.trans h₂.vars, fun hn => h₂.named (h₁.named hn)⟩

theorem Inside.kept {B : Copy → Prop} (h : Inside A S g ret w)
    (hw : w.Kept S.rule (At side (Filled B)) w₁) (hn : (w.env side).Named → (w₁.env side).Named) :
    Further A S g ret w w₁ := by
  have hf := (hw.env side).frame
  rw [at_self] at hf
  exact {
    under := hw.under h.under
    kind := A.policy h.kind (hw.before side).policy
    graph := hf.graph.trans h.graph
    retPost := hf.retPost.trans h.retPost
    vars := (hw.env side).vars
    named := hn }

theorem Inside.placed (h : Inside A S g ret w) (targets : Table String Constr) (t : String) (u : Unroll) :
    Further A S g ret w (placedAt w side g targets t u) := by
  have hplace : w.Kept S.rule (At side (Filled fun _ => False)) (placedAt w side g targets t u) :=
    Fills.placed rfl rfl rfl rfl
  refine h.kept hplace fun hn => ?_
  rw [placedAt, World.env_setEnv]
  exact hn.mono rfl rfl rfl (Nat.le_refl _)

theorem Trails.formal {n : Option String} (h : Trails targets ret post n) (hret : ret.Formal)
    (hall : ∀ {x k}, targets.lookup x = some k → k.Formal) : post.Formal := by
  cases n with
  | some x => exact hall h
  | none => exact h ▸ hret

/-- What is asked of the action that settles copies of blocks. -/
def Guides (A : Account side) (S : Scope) (g : Graph) (ret : Constr) (settle : Settle) : Prop :=
  ∀ {post t u w c w₁}, Inside A S g ret w → settle side post t u w = .ok c w₁ →
    Further A S g ret w w₁ ∧ A.tells (w₁.env side).vars t c

theorem aheadPres_tells {settle : Settle} (hset : Guides A S g ret settle)
    {xs : List String} {ahead : Table String Constr} (hw : Inside A S g ret w)
    (h : aheadPres settle side g post u xs w = .ok ahead w₁) :
    Further A S g ret w w₁ ∧ ∀ x k, ahead.lookup x = some k → A.tells (w₁.env side).vars x k := by
  induction xs generalizing w ahead with
  | nil =>
    cases h
    exact ⟨hw.refl, nofun⟩
  | cons x xs ih =>
    obtain ⟨pre, w₂, hpre, h₁⟩ := bind_ok h
    obtain ⟨rest, w₃, hrest, h₂⟩ := bind_ok h₁
    cases h₂
    obtain ⟨hw₂, htells⟩ := hset hw hpre
    obtain ⟨hw₃, hall⟩ := ih hw₂.toInside hrest
    refine ⟨hw₂.trans hw₃, fun y k hk => ?_⟩
    rw [List.lookup_cons] at hk
    split at hk
    · rename_i hxy
      cases hk
      cases eq_of_beq hxy
      exact A.grows htells hw₃.vars
    · exact hall y k hk

/-- Where no edge goes back, successors are forward ones. -/
theorem edgePres_forward {settle : Settle} {t : String} (hback : ∀ x, ¬ g.isBackEdge t x)
    {xs : List String} {ahead : Table String Constr}
    (h : edgePres settle side g post t u ahead xs w = .ok targets w₁) :
    w₁ = w ∧ (∀ x k, targets.lookup x = some k → ahead.lookup x = some k) ∧
      ∀ x ∈ xs, (targets.lookup x).isSome := by
  induction xs generalizing targets with
  | nil =>
    cases h
    exact ⟨rfl, nofun, nofun⟩
  | cons x xs ih =>
    rw [edgePres, if_neg (hback x)] at h
    obtain ⟨pre, w₂, hpresent, h₁⟩ := bind_ok h
    obtain ⟨hpre, rfl⟩ := present_ok hpresent
    obtain ⟨rest, w₃, hrest, h₂⟩ := bind_ok h₁
    cases h₂
    obtain ⟨rfl, hlookup, hsome⟩ := ih hrest
    refine ⟨rfl, fun y k hk => ?_, fun y hy => ?_⟩
    · rw [List.lookup_cons] at hk
      split at hk
      · rename_i hxy
        cases hk
        cases eq_of_beq hxy
        exact hpre
      · exact hlookup y k hk
    · rw [List.lookup_cons]
      split
      · rfl
      · rename_i hxy
        rcases List.mem_cons.mp hy with rfl | hy
        · rw [beq_self_eq_true] at hxy
          cases hxy
        · exact hsome y hy

/-- The walk is at a block, and there is an account of the blocks that control goes to from there. -/
structure Poised (A : Account side) (S : Scope) (g : Graph) (ret : Constr)
    (targets : Table String Constr) (post : Constr) (b : Blk) (n : Option String) (w : World) : Prop
    extends Inside A S g ret w, Aims side targets ret w where
  postFormal : post.Formal
  tells : targets.lookup x = some k → A.tells (w.env side).vars x k
  isSome : x ∈ g.succsOf b.tid → (targets.lookup x).isSome
  trails : Trails targets ret post (behind? (b, n))

/-- The account of a block follows from that of the blocks that control goes to from there. -/
def Account.Inductive (A : Account side) (S : Scope) (s : Sub) (g : Graph) (ret : Constr) : Prop :=
  ∀ {expand b n targets post c w w₁}, Keeps.Expands S side expand → s.at? b.tid = some (b, n) →
    Poised A S g ret targets post b n w → visitElts expand side post b.elts w = .ok c w₁ →
    Table.Grows (w.env side).vars (w₁.env side).vars →
    ((w.env side).Named → (w₁.env side).Named) ∧ A.tells (w₁.env side).vars b.tid c

/-- What follows from each block to the blocks before it is said of every copy of a block. -/
theorem plainNode_tells (hs : S.body side s) (hg : Graph.ofSub s = .ok g)
    (hback : ∀ a b, ¬ g.isBackEdge a b) (hret : ret.Formal) (hA : A.Inductive S s g ret) (n : Nat) :
    Guides A S g ret (plainNode n) := by
  induction n with
  | zero =>
    intro post t u w c w₁ _ h
    cases h
  | succ n ih =>
    intro post t u w c w₁ hw h
    have hof := Graph.of_ofSub hg
    rw [plainNode_succ hw.graph] at h
    obtain ⟨ahead, w₂, hahead, h₁⟩ := bind_ok h
    obtain ⟨hw₂, htells⟩ := aheadPres_tells ih hw hahead
    obtain ⟨targets, w₃, htargets, h₂⟩ := bind_ok h₁
    obtain ⟨rfl, hlookup, hsome⟩ := edgePres_forward (hback t) htargets
    obtain ⟨after, w₄, hafter, h₃⟩ := bind_ok h₂
    obtain ⟨b, w₅, hb, h₄⟩ := bind_ok h₃
    obtain ⟨hblock, rfl⟩ := present_ok hb
    rw [hof.blocks] at hblock
    obtain ⟨⟨b, next⟩, hp, rfl⟩ := Option.map_eq_some_iff.mp hblock
    obtain ⟨rfl, htrails⟩ := trailing_ok hof hp hw₂.retPost hafter
    obtain ⟨hmem, rfl⟩ := Sub.mem_of_at? hp
    have hx : Keeps.Expands S side (enterPlain (plainNode n)) := fun post c hc =>
      .enterPlain fun g' hg' => ⟨_, plainNode_fills n hc hg' post _ _⟩
    have hw₆ := hw₂.toInside.placed targets b.tid (g.restrict u b.tid)
    have hlist {x : String} {k : Constr} (hk : targets.lookup x = some k) :
        A.tells (w₅.env side).vars x k := htells x k (hlookup x k hk)
    have helts : visitElts (enterPlain (plainNode n)) side after b.elts
        (placedAt w₅ side g targets b.tid (g.restrict u b.tid)) = .ok c w₁ := h₄
    have hrests : Fills S side g (fun _ => False) (visitElts (enterPlain (plainNode n)) side after b.elts) :=
      .rests (.visitElts hx hs hmem (fun _ he => he) after)
    have hkept := hrests.of_ok hw₆.under hw₆.graph helts
    obtain ⟨hnamed, hb⟩ := hA hx hp {
      toInside := hw₆.toInside
      table := by rw [placedAt, World.env_setEnv]
      retFormal := hret
      formal := fun hk => A.formal (hlist hk)
      postFormal := htrails.formal hret fun hk => A.formal (hlist hk)
      tells := fun hk => A.grows (hlist hk) hw₆.vars
      isSome := hsome _
      trails := htrails } helts (hkept.env side).vars
    exact ⟨(hw₂.trans hw₆).trans (hw₆.toInside.kept hkept hnamed), hb⟩

/-! ### Accepted runs -/

/-- The preconditions of blocks accept what the runs from there read. -/
def courses (side : Side) (asks : Store → Exp → Duty → Bool → Prop) (s : Sub) (ret : Constr) :
    Account side where
  kind := Checking side asks
  tells := Courses asks s ret
  policy := Checking.of_policy
  formal := And.left
  grows := Courses.grows

/-- The precondition of a block accepts what the run from there reads if those of the blocks do that
control goes to. -/
theorem courses_inductive (hs : S.body side s) (hg : Graph.ofSub s = .ok g)
    (hdirect : ∀ b ∈ s.blks, b.Direct) : (courses side asks s ret).Inductive S s g ret := by
  intro expand b n targets post c w w₁ hx hp hw h hvars
  have hmem := (Sub.mem_of_at? hp).1
  have hblk {V : Table Var SomeTerm} := visitBlk_accepts (V := V) hx hs hmem (hdirect b hmem) hw.under
    hw.kind hw.toAims hw.postFormal h
  refine ⟨(hblk (V := [])).1, (hblk (V := [])).2.1, fun V hV hsep m => ?_⟩
  obtain ⟨m', reads, reads', taken, last, ho, hd, hsel, harrives, ht⟩ := hblk.2.2 hV hsep m
  exact course_of_block (Graph.of_ofSub hg) hp (hdirect b hmem) (fun _ _ => hw.tells)
    (fun _ => hw.isSome) hw.trails (hvars.trans hV) hsep ho hd hsel harrives ht

end Walk

end Precond

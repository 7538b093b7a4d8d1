import Precond.Proofs.Run.Choices
import Precond.Proofs.Walk.Checks

/-! Subroutines with forced jumps, backwards, against the choices of runs. The precondition of a forced
jump says that the jump goes the way it is forced to, and what holds there (`Walk.forceJump_obeys`); of
the other jumps it says what holds where they lead. So the precondition of a block says that all choices
from the block on obey the path, and what holds at the return (`Walk.Route`). -/

namespace Precond.Walk

open IR Precond.Flow

/-- The jumps that the path tells of are forced, and no conditions are asked for. -/
structure Forcing (side : Side) (path : Table String Bool) (w : World) : Prop where
  reach : (w.env side).reach = path
  sideRules : (w.env side).sideRules = []

variable {S : Scope} {side : Side} {path : Table String Bool} {w w₁ : World} {expand : Expand}
  {V : Table Var SomeTerm} {targets : Table String Constr} {post ret c k : Constr} {s : Sub} {b : Blk}
  {j : Jump}

theorem Forcing.of_policy (h : Forcing side path w)
    (hp : (w₁.env side).policy = (w.env side).policy) : Forcing side path w₁ := by
  have hreach := congrArg Env.reach hp
  have hrules := congrArg Env.sideRules hp
  simp only [Env.policy] at hreach hrules
  exact ⟨hreach.trans h.reach, hrules.trans h.sideRules⟩

theorem Forcing.before (h : Forcing side path w) (hw : w.Before w₁) : Forcing side path w₁ :=
  h.of_policy (hw side).policy

/-- Without side rules nothing is asked for. -/
theorem Forcing.asking (h : Forcing side path w) : Asking side (fun _ _ _ _ => False) w where
  isLocal r hr := by
    rw [h.sideRules] at hr
    cases hr
  asks := by
    rw [h.sideRules]
    funext σ e d b
    exact eq_false (not_demands_nil σ e d b)

/-! ### Jumps -/

/-- A jump that is not forced may be taken or not. -/
theorem Forcing.obeys_of_unforced (h : Forcing side path w) (hj : forced? (w.env side) j = none)
    (taken : Bool) : Choice.Obeys path ⟨j, taken⟩ := by
  intro target hkind b hb
  rw [forced?, h.reach] at hj
  dsimp only at hkind hb
  rw [hb, hkind] at hj
  cases hj

/-- A forced jump is to be taken, or is not to be taken. -/
theorem Forcing.obeys_of_forced (h : Forcing side path w) {t : String} {b : Bool}
    (hj : forced? (w.env side) j = some (t, b)) :
    j.kind = .goto (.direct t) ∧ ∀ taken, Choice.Obeys path ⟨j, taken⟩ ↔ taken = b := by
  rw [forced?, h.reach] at hj
  split at hj
  · rename_i b' t' hb hkind
    cases hj
    refine ⟨hkind, fun taken => ⟨fun ho => ho t hkind b hb, ?_⟩⟩
    rintro rfl target - b' hb'
    exact Option.some.inj (hb.symm.trans hb')
  · cases hj

theorem condition_ok {e : Exp} {p : Term .bool} (h : condition side e w = .ok p w₁) :
    w.Drawn side w₁ ∧ ∃ t, Stands (w.env side).vars e t ∧ t.condition = .ok p := by
  obtain ⟨t, w₂, ht, h₁⟩ := bind_ok h
  obtain ⟨hp, rfl⟩ := ofExcept_ok h₁
  obtain ⟨hd, hst⟩ := translate_ok ht
  exact ⟨hd, t, hst, hp⟩

/-- A constraint with one more goal. -/
theorem goalAnd_ok {name : String} {p : Term .bool} {tid : Option String} (hk : k.Formal)
    (h : (mkGoal name p tid >>= fun g => mkClause [] [g, k]) w = .ok c w₁) :
    (∀ side, w₁.env side = w.env side) ∧ c.Formal ∧ ∀ m, c.truth m = (p.holds m && k.truth m) := by
  obtain ⟨g, w₂, hg, h₁⟩ := bind_ok h
  obtain ⟨rfl, rfl⟩ := mkGoal_ok hg
  obtain ⟨rfl, rfl⟩ := mkClause_ok h₁
  have hgoals : ∀ d ∈ [Constr.goal w.nodes name p tid, k], d.Formal :=
    List.forall_mem_cons.mpr ⟨Constr.formal_goal .., List.forall_mem_singleton.mpr hk⟩
  refine ⟨fun side => by cases side <;> rfl, Constr.formal_clause (List.forall_mem_nil _) hgoals, fun m => ?_⟩
  rw [Constr.truth_clause (List.forall_mem_nil _) hgoals, List.all_cons, List.all_cons, List.all_nil,
    Constr.truth_goal, Bool.and_true]
  rfl

/-- A forced jump goes the way that it is forced to, and what holds there is true. -/
theorem forceJump_obeys {t : String} {b : Bool} (ha : Aims side targets ret w) (hpost : post.Formal)
    (h : forceJump side post j t b w = .ok c w₁) :
    ((w.env side).Named → (w₁.env side).Named) ∧ c.Formal ∧
      (Table.Grows (w₁.env side).vars V → ∀ m, ∃ x taken, j.cond.Yields (m.store V) x ∧
        x.nonZero? = some taken ∧ (c.truth m = true ↔ taken = b ∧
          (if taken then ((targets.lookup t).getD post).truth m else post.truth m) = true)) := by
  obtain ⟨p, w₂, hp, h₁⟩ := bind_ok h
  obtain ⟨hd, x, hst, hx⟩ := condition_ok hp
  have hframe : (w₂.env side).frame = (w.env side).frame := by
    obtain ⟨names, he, -⟩ := hd.env
    rw [he]
  have hyields {m : Model} (hV : Table.Grows (w₂.env side).vars V) :
      j.cond.Yields (m.store V) (x.value m) ∧ (x.value m).nonZero? = some (p.holds m) :=
    ⟨hst V (hd.vars ▸ hV) m, SomeTerm.condition_value hx⟩
  cases b with
  | true =>
    obtain ⟨after, w₃, hafter, h₂⟩ := bind_ok h₁
    obtain ⟨rfl, hformal, rfl⟩ := targetPre_aims (ha.stays hframe) hpost hafter
    obtain ⟨henv, hc, ht⟩ := goalAnd_ok hformal h₂
    rw [henv side]
    refine ⟨drawn_named hd, hc, fun hV m => ⟨_, _, (hyields hV).1, (hyields hV).2, ?_⟩⟩
    rw [ht]
    cases p.holds m with
    | true => simp
    | false => simp
  | false =>
    obtain ⟨henv, hc, ht⟩ := goalAnd_ok hpost h₁
    rw [henv side]
    refine ⟨drawn_named hd, hc, fun hV m => ⟨_, _, (hyields hV).1, (hyields hV).2, ?_⟩⟩
    rw [ht, Spine.holds_not]
    cases p.holds m with
    | true => simp
    | false => simp

/-- The precondition of a jump says that the choice there obeys the path, and what holds where control
goes from it. -/
theorem visitJump_obeys (hx : Keeps.Expands S side expand) (hs : S.body side s) (hb : b ∈ s.blks)
    (hmem : j ∈ b.jumps) (hdirect : b.Direct) (hw : w.Under S) (hf : Forcing side path w)
    (ha : Aims side targets ret w) (hpost : post.Formal)
    (h : visitJump expand side post j w = .ok c w₁) :
    ((w.env side).Named → (w₁.env side).Named) ∧ c.Formal ∧
      (Table.Grows (w₁.env side).vars V → ∀ m,
        Judges (fun _ choice last => choice.Obeys path ∧ last) V targets ret j c post m) := by
  cases hforced : forced? (w.env side) j with
  | none =>
    obtain ⟨hn, hformal, haccepts⟩ := visitJump_accepts (V := V) hx hs hb hmem hdirect hw hf.asking
      hforced ha hpost h
    refine ⟨hn, hformal, fun hV m => ?_⟩
    obtain ⟨x, taken, after, hy, hz, hfollow, ht⟩ := haccepts hV m
    refine ⟨x, taken, after, hy, hz, hfollow, ?_⟩
    rw [ht, accepting, accepts_unasked (fun _ _ _ => id)]
    exact (and_iff_right (hf.obeys_of_unforced hforced taken)).symm
  | some target =>
    obtain ⟨t, b⟩ := target
    obtain ⟨hkind, hobeys⟩ := hf.obeys_of_forced hforced
    obtain ⟨e₀, w₀, he₀, h₁⟩ := bind_ok h
    obtain ⟨rfl, rfl⟩ := env_ok he₀
    rw [hforced] at h₁
    obtain ⟨hn, hformal, htruth⟩ := forceJump_obeys (V := V) ha hpost h₁
    refine ⟨hn, hformal, fun hV m => ?_⟩
    obtain ⟨x, taken, hy, hz, ht⟩ := htruth hV m
    refine ⟨x, taken, _, hy, hz, fun way hway => ?_, ht.trans (and_congr_left' (hobeys taken).symm)⟩
    rw [Jump.way?, hkind] at hway
    cases hway
    exact fun k hk => by rw [hk]; rfl

/-- The precondition of a block says that its choices obey the path, and what holds where control goes
from it. -/
theorem visitBlk_obeys (hx : Keeps.Expands S side expand) (hs : S.body side s) (hb : b ∈ s.blks)
    (hdirect : b.Direct) (hw : w.Under S) (hf : Forcing side path w) (ha : Aims side targets ret w)
    (hpost : post.Formal) (h : visitElts expand side post b.elts w = .ok c w₁) :
    ((w.env side).Named → (w₁.env side).Named) ∧ c.Formal ∧
      (Table.Grows (w₁.env side).vars V → Separate V → ∀ m, ∃ m' cs taken last,
        m.Off V m' ∧ Assigns b.defs (m.store V) (m'.store V) ∧
        Decides (m'.store V) b.jumps cs taken ∧ Arrives V targets ret post m' last taken ∧
        (c.truth m = true ↔ Obeys path cs ∧ last = true)) := by
  obtain ⟨hn, hformal, hjudges⟩ := visitBlk_judges (V := V) (K := Forcing side path) hx hs hb hdirect
    Forcing.before (fun hmem hw hf ha hpost h => visitJump_obeys hx hs hb hmem hdirect hw hf ha hpost h)
    Forcing.asking hw hf ha hpost h
  refine ⟨hn, hformal, fun hV hsep m => ?_⟩
  obtain ⟨m', reads, cs, taken, last, ho, hd, hdec, harrives, ht⟩ := hjudges hV hsep m
  refine ⟨m', cs, taken, last, ho, hd.assigns, hdec, harrives, ?_⟩
  rw [ht, accepts_unasked (fun _ _ _ => id), obeys_foldr]

/-! ### Subroutines -/

/-- The precondition of a block says that the choices from there obey the path, and what holds at the
return. -/
def Route (path : Table String Bool) (s : Sub) (ret : Constr) (V : Table Var SomeTerm) (t : String)
    (c : Constr) (m : Model) : Prop :=
  ∃ cs m', m.Off V m' ∧ s.Chooses t (m.store V) cs (m'.store V) ∧
    (c.truth m = true ↔ Obeys path cs ∧ ret.truth m' = true)

/-- The preconditions of blocks tell which choices obey the path. -/
def routes (side : Side) (path : Table String Bool) (s : Sub) (ret : Constr) : Account side where
  kind := Forcing side path
  tells T t c := c.Formal ∧ ∀ V, Table.Grows T V → Separate V → ∀ m, Route path s ret V t c m
  policy := Forcing.of_policy
  formal := And.left
  grows h hT := ⟨h.1, fun V hV => h.2 V (hT.trans hV)⟩

/-- From a block that goes on at another one, its choices are followed by those from that one. -/
theorem Route.goto {behind : Option String} {t u : String} {m m' : Model} {cs : List Choice}
    {taken : Option Jump} (hp : s.at? t = some (b, behind)) (ho : m.Off V m')
    (ha : Assigns b.defs (m.store V) (m'.store V)) (hd : Decides (m'.store V) b.jumps cs taken)
    (hway : Blk.way? behind taken = some (.goto u))
    (ht : c.truth m = true ↔ Obeys path cs ∧ k.truth m' = true) (hk : Route path s ret V u k m') :
    Route path s ret V t c m := by
  obtain ⟨cs', m₁, ho₁, hch, ht₁⟩ := hk
  refine ⟨cs ++ cs', m₁, ho.trans ho₁, .goto hp ha hd hway hch, ?_⟩
  rw [ht, ht₁, obeys_append, and_assoc]

/-- The precondition of a block tells which choices obey the path if those of the blocks do that control
goes to. -/
theorem routes_inductive {g : Graph} (hs : S.body side s) (hg : Graph.ofSub s = .ok g)
    (hdirect : ∀ b ∈ s.blks, b.Direct) (hclosed : s.closed) :
    (routes side path s ret).Inductive S s g ret := by
  intro expand b n targets post c w w₁ hx hp hw h hvars
  have hof := Graph.of_ofSub hg
  have hmem := (Sub.mem_of_at? hp).1
  have hblk {V : Table Var SomeTerm} := visitBlk_obeys (V := V) hx hs hmem (hdirect b hmem) hw.under
    hw.kind hw.toAims hw.postFormal h
  refine ⟨(hblk (V := [])).1, (hblk (V := [])).2.1, fun V hV hsep m => ?_⟩
  obtain ⟨m', cs, taken, last, ho, ha, hd, harrives, ht⟩ := hblk.2.2 hV hsep m
  have hnext {u : String} {k : Constr} (hk : targets.lookup u = some k) : Route path s ret V u k m' :=
    (hw.tells hk).2 V (hvars.trans hV) hsep m'
  cases taken with
  | some j =>
    obtain ⟨way, hway, hclosed⟩ := Sub.simple_jumps hclosed hmem hd.takes.mem
    have hfollow := harrives way hway
    cases way with
    | out =>
      refine ⟨cs, m', ho, .out hp ha hd hway, ?_⟩
      rw [ht, show last = ret.truth m' from hfollow]
    | goto u =>
      have hu := Sub.at?_isSome (List.contains_iff_mem.mp (hclosed u rfl))
      have hsucc := hof.mem_succsOf_of_jump hp hd.takes.mem (Jump.target?_of_way hway rfl) hu
      obtain ⟨k, hk⟩ := Option.isSome_iff_exists.mp (hw.isSome hsucc)
      exact .goto hp ho ha hd hway (hfollow k hk ▸ ht) (hnext hk)
    | call f back => exact absurd hway ((hdirect b hmem).way? hd.takes.mem)
  | none =>
    have htrails := hw.trails
    rw [behind?, if_pos hd.takes.fallsThrough] at htrails
    rw [show last = post.truth m' from harrives] at ht
    cases n with
    | none =>
      cases htrails
      exact ⟨cs, m', ho, .out hp ha hd rfl, ht⟩
    | some u => exact .goto hp ho ha hd rfl ht (hnext htrails)

end Precond.Walk

import Precond.Proofs.Flow.Unroll
import Precond.Proofs.Walk.Block
import Precond.Walk.Sub

/-! What the precondition of a copy of a block says of a state, against the run from the state. It
is what is said of the state in which the run returns, unless the run strays, or takes a back edge
that is cut (`Walk.Faithful`). The precondition of a block is faithful where those of its
successors are (`Walk.Faithful.leave`).

Subroutines, backwards, against runs. While a subroutine is walked, all preconditions that are
kept are faithful (`Walk.Settled`), and settling a copy of a block keeps them so (`Walk.Settles`);
the induction is on the fuel of the walk and covers callees (`settleNode_ok`). A walk of a
subroutine gives the faithful precondition of its entry (`enterSub_ok`). -/

namespace Precond

open IR Precond.Flow

theorem IR.Reaches.cons (h : Reaches subs s t σ trace) : ∃ rest, trace = t :: rest := by
  cases h with
  | here => exact ⟨_, rfl⟩
  | goto => exact ⟨_, rfl⟩
  | call => exact ⟨_, rfl⟩

namespace Walk

section

variable (V : Table Var SomeTerm) (subs : List Sub) (s : Sub) (g : Graph) (bound : Int)
  (ret : Constr)

/-- The truth value `b` is faithful to the run of a subroutine from a copy of a block on. -/
inductive Faithful (t : String) (u : Unroll) (m : Model) (b : Bool) : Prop
  | returns : m.Off V m' → Runs subs s t (m.store V) trace (.returned (m'.store V)) →
      b = ret.truth m' → Faithful t u m b
  | strays : Runs subs s t (m.store V) trace (.strayed x) → Faithful t u m b
  | cut : b = true → Reaches subs s t (m.store V) trace → g.Overruns bound u trace →
      Faithful t u m b

end

section

variable (subs : List Sub) (s : Sub) (g : Graph) (bound : Int) (ret : Constr)
  (T : Table Var SomeTerm)

/-- The precondition of a copy of a block is faithful in every model. -/
def Good (t : String) (u : Unroll) (c : Constr) : Prop :=
  ∀ V, Table.Grows T V → Separate V → ∀ m, Faithful V subs s g bound ret t u m (c.truth m)

/-- What holds behind an edge: nothing is asked where the edge is cut. -/
def Behind (a b : String) (u : Unroll) (c : Constr) : Prop :=
  (g.isBackEdge a b ∧ bound ≤ u.count b + 1 ∧ ∀ m, c.truth m = true) ∨
    Good subs s g bound ret T b (g.along u a b) c

end

variable {V T T' : Table Var SomeTerm} {subs : List Sub} {s : Sub} {g : Graph} {bound : Int}
  {ret c : Constr} {t x : String} {u : Unroll} {m m₁ : Model} {b : Bool}
  {targets : Table String Constr} {way : Way}

theorem Good.grows (h : Good subs s g bound ret T t u c) (hT : Table.Grows T T') :
    Good subs s g bound ret T' t u c :=
  fun V hV => h V (hT.trans hV)

theorem Behind.grows (h : Behind subs s g bound ret T t x u c) (hT : Table.Grows T T') :
    Behind subs s g bound ret T' t x u c :=
  h.imp_right fun hg => hg.grows hT

/-- From a block whose run goes on at another block behind an edge. -/
theorem Faithful.arrive {k : Constr} (hV : Table.Grows T V) (hsep : Separate V) (ho : m.Off V m₁)
    (hruns : ∀ {trace o}, Runs subs s x (m₁.store V) trace o →
      Runs subs s t (m.store V) (t :: trace) o)
    (hreaches : ∀ {trace}, Reaches subs s x (m₁.store V) trace →
      Reaches subs s t (m.store V) (t :: trace))
    (hx : (s.at? x).isSome) (hk : Behind subs s g bound ret T t x u k) (hb : b = k.truth m₁) :
    Faithful V subs s g bound ret t u m b := by
  rcases hk with ⟨hback, hcut, htrue⟩ | hk
  · exact .cut (hb.trans (htrue m₁)) (hreaches (.here hx)) (.here hback hcut)
  · cases hk V hV hsep m₁ with
    | returns ho₂ hr hret => exact .returns (ho.trans ho₂) (hruns hr) (hb.trans hret)
    | strays hr => exact .strays (hruns hr)
    | cut htrue hr hover =>
      obtain ⟨rest, rfl⟩ := hr.cons
      exact .cut (hb.trans htrue) (hreaches hr) (.later hover)

/-- The truth value of a block is faithful where what is said behind its edges is. -/
theorem Faithful.leave (targets : Table String Constr) (way : Way) (hV : Table.Grows T V)
    (hsep : Separate V) (ho : m.Off V m₁) (hl : s.Leaves t (m.store V) way (m₁.store V))
    (hf : Follows V subs targets ret m₁ b way)
    (ht : ∀ x, way.next? = some x → (s.at? x).isSome →
      ∃ k, targets.lookup x = some k ∧ Behind subs s g bound ret T t x u k) :
    Faithful V subs s g bound ret t u m b := by
  cases way with
  | goto x =>
    cases hx : s.at? x with
    | none => exact .strays (.goto hl (.stray hx))
    | some p =>
      have hx' : (s.at? x).isSome := hx ▸ rfl
      obtain ⟨k, hk, hbehind⟩ := ht x rfl hx'
      exact .arrive hV hsep ho (.goto hl) (.goto hl) hx' hbehind (hf k hk)
  | out => exact .returns ho (.out hl) hf
  | call f back =>
    cases back with
    | none =>
      obtain ⟨c, e, he, ⟨trace, m₂, ho₂, hr, hb⟩ | ⟨trace, v, hr⟩⟩ := hf
      · exact .returns (ho.trans ho₂) (.tail hl he hr) hb
      · exact .strays (.tail hl he hr)
    | some x =>
      obtain ⟨c, e, k, he, ⟨trace, m₂, ho₂, hr, hb⟩ | ⟨trace, v, hr⟩, hk⟩ := hf
      · cases hx : s.at? x with
        | none => exact .strays (.call hl he hr (.stray hx))
        | some p =>
          have hx' : (s.at? x).isSome := hx ▸ rfl
          obtain ⟨k', hk', hbehind⟩ := ht x rfl hx'
          exact .arrive hV hsep (ho.trans ho₂) (.call hl he hr) (.call hl he hr) hx' hbehind
            (hk k' hk' ▸ hb)
      · exact .strays (.lost hl he hr)

end Walk

end Precond

namespace Precond.Walk

open IR Precond.Flow

/-- The subroutines that are walked below some expanded ones: their jumps have a way each, and no
callee comes back to itself. -/
structure Domain (subs : List Sub) (D : List String → Sub → Prop) (C : Sub → Prop) : Prop where
  phis : D inlining s → b ∈ s.blks → b.phis = []
  jumps : D inlining s → b ∈ s.blks → j ∈ b.jumps → JumpIn subs D C inlining j
  acyclic : C s → Graph.ofSub s = .ok g → g.Acyclic

/-- The walk is in a subroutine, and what is kept of its blocks is faithful. -/
structure Settled (side : Side) (subs : List Sub) (s : Sub) (g : Graph) (bound : Int) (ret : Constr)
    (K : Constr → Prop) (w : World) : Prop where
  unrollBound : (w.env side).unrollBound = bound
  graph : (w.env side).frame.graph = some g
  retPost : (w.env side).frame.retPost = some ret
  retK : K ret
  kept : (w.env side).frame.preconds[(t, u)]? = some c →
    K c ∧ Good subs s g bound ret (w.env side).vars t u c

/-- What is asked of the action that settles copies of blocks. -/
def Settles (side : Side) (cuts : Prop) (subs : List Sub) (D : List String → Sub → Prop)
    (C : Sub → Prop) (settle : Settle) : Prop :=
  ∀ {K : Constr → Prop} {w w' : World} {post ret c : Constr} {s : Sub} {g : Graph} {bound : Int}
    {t : String} {u : Unroll}, Ready side subs C K w → Settled side subs s g bound ret K w →
    D (w.env side).inlining s → g.Of s → (∀ a b, g.isBackEdge a b → cuts) →
    settle side post t u w = .ok c w' →
    ∃ K', Walked side cuts K K' w w' ∧ Settled side subs s g bound ret K' w' ∧
      (w'.env side).inlining = (w.env side).inlining ∧ K' c ∧
      Good subs s g bound ret (w'.env side).vars t (g.restrict u t) c

variable {side : Side} {cuts : Prop} {K K' : Constr → Prop} {w w' : World} {subs : List Sub}
  {D : List String → Sub → Prop} {C : Sub → Prop} {settle : Settle} {expand : Expand}
  {s : Sub} {g : Graph} {bound : Int} {post ret c : Constr} {t : String} {u : Unroll}
  {targets : Table String Constr}

theorem Settled.walked (h : Settled side subs s g bound ret K w) (hw : Walked side cuts K K' w w')
    (hg : (w'.env side).frame.graph = (w.env side).frame.graph)
    (hr : (w'.env side).frame.retPost = (w.env side).frame.retPost)
    (hp : (w'.env side).frame.preconds = (w.env side).frame.preconds) :
    Settled side subs s g bound ret K' w' where
  unrollBound := hw.later.unrollBound.trans h.unrollBound
  graph := hg.trans h.graph
  retPost := hr.trans h.retPost
  retK := hw.grows h.retK
  kept hk := by
    rw [hp] at hk
    obtain ⟨hK, hgood⟩ := h.kept hk
    exact ⟨hw.grows hK, hgood.grows hw.later.vars⟩

theorem Settled.stays (h : Settled side subs s g bound ret K w) (hw : Walked side cuts K K' w w')
    (hs : Stays side w w') : Settled side subs s g bound ret K' w' :=
  h.walked hw (by rw [hs.frame]) (by rw [hs.frame]) (by rw [hs.frame])

/-- One more precondition is kept. -/
theorem Settled.insert (h : Settled side subs s g bound ret K w) (hw : Walked side cuts K K w w')
    (he : (w'.env side).frame = { (w.env side).frame with
      preconds := (w.env side).frame.preconds.insert (t, u) c })
    (hc : K c) (hgood : Good subs s g bound ret (w'.env side).vars t u c) :
    Settled side subs s g bound ret K w' where
  unrollBound := hw.later.unrollBound.trans h.unrollBound
  graph := by rw [he]; exact h.graph
  retPost := by rw [he]; exact h.retPost
  retK := h.retK
  kept {x y d} hd := by
    rw [he] at hd
    change ((w.env side).frame.preconds.insert (t, u) c)[(x, y)]? = _ at hd
    rw [Std.HashMap.getElem?_insert] at hd
    split at hd
    · rename_i hxy
      cases hd
      cases eq_of_beq hxy
      exact ⟨hc, hgood⟩
    · obtain ⟨hKd, hd'⟩ := h.kept hd
      exact ⟨hKd, hd'.grows hw.later.vars⟩

/-! ### Successors -/

theorem settleForward_ok (hset : Settles side cuts subs D C settle) {xs : List String}
    (hw : Ready side subs C K w) (hs : Settled side subs s g bound ret K w)
    (hD : D (w.env side).inlining s) (hg : g.Of s) (hcuts : ∀ a b, g.isBackEdge a b → cuts)
    {v : Unit} (h : settleForward settle side g post u xs w = .ok v w') :
    ∃ K', Walked side cuts K K' w w' ∧ Settled side subs s g bound ret K' w' ∧
      (w'.env side).inlining = (w.env side).inlining := by
  induction xs generalizing K w with
  | nil =>
    cases h
    exact ⟨K, .refl .., hs, rfl⟩
  | cons x xs ih =>
    obtain ⟨c, w₁, hc, h₁⟩ := bind_ok h
    obtain ⟨K₁, hw₁, hs₁, hi₁, -⟩ := hset hw hs hD hg hcuts hc
    obtain ⟨K₂, hw₂, hs₂, hi₂⟩ := ih (hw.walked hw₁) hs₁ (hi₁ ▸ hD) h₁
    exact ⟨K₂, hw₁.trans hw₂, hs₂, hi₂.trans hi₁⟩

theorem note_ok {kind : WeakeningKind} {tid detail : String} {v : Unit} (hcuts : cuts)
    (h : on side (Env.note kind tid detail) w = .ok v w') :
    Walked side cuts K K w w' ∧ Stays side w w' := by
  obtain ⟨e, he, rfl⟩ := on_ok h
  obtain rfl := Env.note_ok he
  refine ⟨.setEnv ⟨rfl, rfl, rfl, rfl, rfl, .refl _, .refl _,
    .of_eq rfl rfl rfl rfl rfl rfl, id, .inr hcuts⟩, ?_, ?_⟩
  · rw [World.env_setEnv]
  · rw [World.env_setEnv]

/-- A back edge leads to the next copy of its header, or is cut. -/
theorem loopPre_ok (hset : Settles side cuts subs D C settle) {x : String}
    (hw : Ready side subs C K w) (hs : Settled side subs s g bound ret K w)
    (hD : D (w.env side).inlining s) (hg : g.Of s) (hcuts : ∀ a b, g.isBackEdge a b → cuts)
    (hback : g.isBackEdge t x) (h : loopPre settle side post x u w = .ok c w') :
    ∃ K', Walked side cuts K K' w w' ∧ Settled side subs s g bound ret K' w' ∧
      (w'.env side).inlining = (w.env side).inlining ∧ K' c ∧
      Behind subs s g bound ret (w'.env side).vars t x u c := by
  obtain ⟨e, w₀, he, h₁⟩ := bind_ok h
  obtain ⟨rfl, rfl⟩ := env_ok he
  rw [hs.unrollBound] at h₁
  by_cases hle : bound ≤ ((u.count x + 1 : Nat) : Int)
  · rw [if_pos hle] at h₁
    obtain ⟨v, w₁, hv, h₂⟩ := bind_ok h₁
    obtain ⟨hw₁, hs₁⟩ := note_ok (K := K) (hcuts _ _ hback) hv
    obtain ⟨rfl, rfl⟩ := mkGoal_ok h₂
    obtain ⟨hw₂, hs₂⟩ := Walked.node side cuts K
      (c := .goal w₁.nodes "true" (.truth true) none) rfl (fun d hd => nomatch hd)
      (fun _ => Constr.formal_goal _ _)
    refine ⟨_, hw₁.trans hw₂, hs.stays (hw₁.trans hw₂) (hs₁.trans hs₂), ?_, .inr rfl,
      .inl ⟨hback, by exact_mod_cast hle, fun m => rfl⟩⟩
    exact (hs₁.trans hs₂).inlining
  · rw [if_neg hle] at h₁
    obtain ⟨K₁, hw₁, hs₁, hi₁, hk₁, hgood⟩ := hset hw hs hD hg hcuts h₁
    refine ⟨K₁, hw₁, hs₁, hi₁, hk₁, .inr ?_⟩
    rw [Graph.along, if_pos hback]
    exact hgood

/-- What holds behind an edge: at the next copy of a header, or at a copy that is settled. -/
def edgePre (settle : Settle) (side : Side) (g : Graph) (post : Constr) (t : String) (u : Unroll)
    (x : String) : Walk Constr :=
  if g.isBackEdge t x then loopPre settle side post x u
  else do present ((← env side).precond? x (g.restrict u x))

theorem successorPres_cons {x : String} {xs : List String}
    (h : successorPres settle side g post t u (x :: xs) w = .ok targets w') :
    ∃ k w₁ rest, edgePre settle side g post t u x w = .ok k w₁ ∧
      successorPres settle side g post t u xs w₁ = .ok rest w' ∧ targets = (x, k) :: rest := by
  rw [successorPres] at h
  rw [edgePre]
  by_cases hb : g.isBackEdge t x = true
  · rw [if_pos hb] at h
    rw [if_pos hb]
    obtain ⟨k, w₁, hk, h₁⟩ := bind_ok h
    obtain ⟨rest, w₂, hrest, h₂⟩ := bind_ok h₁
    cases h₂
    exact ⟨k, w₁, rest, hk, hrest, rfl⟩
  · rw [if_neg hb] at h
    rw [if_neg hb]
    obtain ⟨e, w₀, he, h₀⟩ := bind_ok h
    obtain ⟨k, w₁, hk, h₁⟩ := bind_ok h₀
    obtain ⟨rest, w₂, hrest, h₂⟩ := bind_ok h₁
    cases h₂
    exact ⟨k, w₁, rest, (bind_of_ok he).trans hk, hrest, rfl⟩

theorem edgePre_ok (hset : Settles side cuts subs D C settle) {x : String}
    (hw : Ready side subs C K w) (hs : Settled side subs s g bound ret K w)
    (hD : D (w.env side).inlining s) (hg : g.Of s) (hcuts : ∀ a b, g.isBackEdge a b → cuts)
    (h : edgePre settle side g post t u x w = .ok c w') :
    ∃ K', Walked side cuts K K' w w' ∧ Settled side subs s g bound ret K' w' ∧
      (w'.env side).inlining = (w.env side).inlining ∧ K' c ∧
      Behind subs s g bound ret (w'.env side).vars t x u c := by
  rw [edgePre] at h
  by_cases hb : g.isBackEdge t x = true
  · rw [if_pos hb] at h
    exact loopPre_ok hset hw hs hD hg hcuts hb h
  · rw [if_neg hb] at h
    obtain ⟨e, w₀, he, h₁⟩ := bind_ok h
    obtain ⟨rfl, rfl⟩ := env_ok he
    obtain ⟨hk, rfl⟩ := present_ok h₁
    obtain ⟨hK, hgood⟩ := hs.kept hk
    refine ⟨K, .refl .., hs, rfl, hK, .inr ?_⟩
    rw [Graph.along, if_neg hb]
    exact hgood

theorem successorPres_ok (hset : Settles side cuts subs D C settle) {xs : List String}
    (hw : Ready side subs C K w) (hs : Settled side subs s g bound ret K w)
    (hD : D (w.env side).inlining s) (hg : g.Of s) (hcuts : ∀ a b, g.isBackEdge a b → cuts)
    (h : successorPres settle side g post t u xs w = .ok targets w') :
    ∃ K', Walked side cuts K K' w w' ∧ Settled side subs s g bound ret K' w' ∧
      (w'.env side).inlining = (w.env side).inlining ∧
      (∀ x k, targets.lookup x = some k →
        K' k ∧ Behind subs s g bound ret (w'.env side).vars t x u k) ∧
      ∀ x ∈ xs, (targets.lookup x).isSome := by
  induction xs generalizing K w targets with
  | nil =>
    cases h
    exact ⟨K, .refl .., hs, rfl, nofun, nofun⟩
  | cons x xs ih =>
    obtain ⟨k, w₁, rest, hk, hrest, rfl⟩ := successorPres_cons h
    obtain ⟨K₁, hw₁, hs₁, hi₁, hk₁, hbehind⟩ := edgePre_ok hset hw hs hD hg hcuts hk
    obtain ⟨K₂, hw₂, hs₂, hi₂, hlookup, hsome⟩ := ih (hw.walked hw₁) hs₁ (hi₁ ▸ hD) hrest
    refine ⟨K₂, hw₁.trans hw₂, hs₂, hi₂.trans hi₁, fun y k' hy => ?_, fun y hy => ?_⟩
    · rw [List.lookup_cons] at hy
      split at hy
      · rename_i hxy
        cases hy
        cases eq_of_beq hxy
        exact ⟨hw₂.grows hk₁, hbehind.grows hw₂.later.vars⟩
      · exact hlookup y k' hy
    · rw [List.lookup_cons]
      split
      · rfl
      · rename_i hxy
        rcases List.mem_cons.mp hy with rfl | hy
        · rw [beq_self_eq_true] at hxy
          cases hxy
        · exact hsome y hy

/-! ### Blocks -/

/-- What holds behind the last jump of a block: what holds at the block behind, if control may run
into it, and else what holds at the return. -/
def Trails (targets : Table String Constr) (ret after : Constr) : Option String → Prop
  | some next => targets.lookup next = some after
  | none => after = ret

theorem trailing_ok {p : Blk × Option String} (hg : g.Of s) (ht : s.at? t = some p)
    (hr : (w.env side).frame.retPost = some ret) (h : trailing side g targets t w = .ok c w') :
    w' = w ∧ Trails targets ret c (behind? p) := by
  unfold trailing at h
  rw [hg.fallthrough, ht, Option.map_some, Option.join_some] at h
  cases hp : behind? p with
  | some next =>
    rw [hp] at h
    obtain ⟨hc, rfl⟩ := present_ok h
    exact ⟨rfl, hc⟩
  | none =>
    rw [hp] at h
    obtain ⟨e, w₁, he, h₁⟩ := bind_ok h
    obtain ⟨rfl, rfl⟩ := env_ok he
    obtain ⟨hc, rfl⟩ := present_ok h₁
    exact ⟨rfl, Option.some.inj (hc.symm.trans hr)⟩

/-- The precondition of a block is faithful where what holds behind its edges is. -/
theorem good_of_blk {T : Table Var SomeTerm} {b : Blk} {n : Option String} {after : Constr}
    (hg : g.Of s) (ht : s.at? t = some (b, n))
    (hbehind : ∀ x k, targets.lookup x = some k → Behind subs s g bound ret T t x u k)
    (hsome : ∀ x ∈ g.succsOf t, (targets.lookup x).isSome)
    (hafter : Trails targets ret after (behind? (b, n)))
    (hblk : ∀ V, Table.Grows T V → Separate V → ∀ m, ∃ m', m.Off V m' ∧
      Assigns b.defs (m.store V) (m'.store V) ∧
      ((∃ j way, Takes (m'.store V) b.jumps (some j) ∧ j.way? = some way ∧
          Follows V subs targets ret m' (c.truth m) way) ∨
        Takes (m'.store V) b.jumps none ∧ c.truth m = after.truth m')) :
    Good subs s g bound ret T t u c := by
  intro V hV hsep m
  obtain ⟨m₁, ho, ha, ⟨j, way, htakes, hway, hf⟩ | ⟨htakes, hc⟩⟩ := hblk V hV hsep m
  · refine .leave targets way hV hsep ho (.mk ht (.jump ha htakes hway)) hf fun x hx hxs => ?_
    have hmem := hg.mem_succsOf_of_jump ht htakes.mem (Jump.target?_of_way hway hx) hxs
    obtain ⟨k, hk⟩ := Option.isSome_iff_exists.mp (hsome x hmem)
    exact ⟨k, hk, hbehind x k hk⟩
  · rw [behind?, if_pos htakes.fallsThrough] at hafter
    cases n with
    | none =>
      cases hafter
      refine .leave targets .out hV hsep ho (.mk ht (.last ha htakes)) hc fun x hx => ?_
      cases hx
    | some x =>
      refine .leave targets (.goto x) hV hsep ho (.mk ht (.next ha htakes)) (fun k hk => ?_)
        fun y hy _ => ?_
      · cases hafter.symm.trans hk
        exact hc
      · cases hy
        exact ⟨after, hafter, hbehind x after hafter⟩

/-- A block whose successors are settled. -/
theorem visitBlock_ok {b : Blk} {n : Option String} {after : Constr} (hdom : Domain subs D C)
    (hx : Expands side cuts subs D C expand) (hw : Ready side subs C K w)
    (hs : Settled side subs s g bound ret K w) (hp : Placed side K targets ret w) (hK : K after)
    (hu : (w.env side).frame.unroll = u) (hD : D (w.env side).inlining s)
    (ht : s.at? t = some (b, n))
    (hgood : ∀ T c, Table.Grows (w.env side).vars T → (∀ V, Table.Grows T V → Separate V → ∀ m,
      ∃ m', m.Off V m' ∧ Assigns b.defs (m.store V) (m'.store V) ∧
        ((∃ j way, Takes (m'.store V) b.jumps (some j) ∧ j.way? = some way ∧
            Follows V subs targets ret m' (c.truth m) way) ∨
          Takes (m'.store V) b.jumps none ∧ c.truth m = after.truth m')) →
      Good subs s g bound ret T t u c)
    (h : visitBlock expand side after b w = .ok c w') :
    ∃ K', Walked side cuts K K' w w' ∧ Settled side subs s g bound ret K' w' ∧
      (w'.env side).inlining = (w.env side).inlining ∧ K' c ∧
      Good subs s g bound ret (w'.env side).vars t u c := by
  obtain ⟨hb, rfl⟩ := Sub.mem_of_at? ht
  obtain ⟨e, w₀, he, h₁⟩ := bind_ok h
  obtain ⟨rfl, rfl⟩ := env_ok he
  cases hk : (w₀.env side).precond? b.tid (w₀.env side).frame.unroll with
  | some k =>
    rw [hk] at h₁
    cases h₁
    rw [hu] at hk
    obtain ⟨hKc, hc⟩ := hs.kept hk
    exact ⟨K, .refl .., hs, rfl, hKc, hc⟩
  | none =>
    rw [hk] at h₁
    obtain ⟨v, w₁, hv, h₂⟩ := bind_ok h₁
    obtain ⟨hw₁, he₁⟩ := modifyEnv_later (fun e => .of_frame cuts ..) hv
    obtain ⟨pre, w₂, hpre, h₃⟩ := bind_ok h₂
    obtain ⟨v', w₃, hv', h₄⟩ := bind_ok h₃
    cases h₄
    have hp₁ : Placed side K targets ret w₁ :=
      ⟨by rw [he₁]; exact hp.retPost, by rw [he₁]; exact hp.table, hp.retK, hp.targetK⟩
    have hi₁ : (w₁.env side).inlining = (w₀.env side).inlining := by rw [he₁]
    have hs₁ := hs.walked (hw₁ K) (by rw [he₁]) (by rw [he₁]) (by rw [he₁])
    obtain ⟨K', hw₂, hst, hKc, hblk⟩ := visitBlk_ok hx (hw.walked (hw₁ K)) hp₁ hK (hdom.phis hD hb)
      (fun j hj => hi₁ ▸ hdom.jumps hD hb hj) hpre
    obtain ⟨hw₃, he₃⟩ := modifyEnv_later (fun e => .of_frame cuts ..) hv'
    have hall := ((hw₁ K).trans hw₂).trans (hw₃ K')
    have hu₂ : (w₂.env side).frame.unroll = u := by rw [hst.frame, he₁]; exact hu
    have hc : Good subs s g bound ret (w'.env side).vars b.tid u c :=
      hgood _ c hall.later.vars fun V hV => hblk V ((hw₃ K').later.vars.trans hV)
    refine ⟨K', hall, (hs₁.stays hw₂ hst).insert (hw₃ K') ?_ hKc hc, ?_, hKc, hc⟩
    · rw [he₃, ← hu₂]
    · rw [he₃]
      exact hst.inlining.trans hi₁

/-- A block whose forward successors are settled. -/
theorem settleBlock_ok (hdom : Domain subs D C) (hset : Settles side cuts subs D C settle)
    (hx : Expands side cuts subs D C expand) (hw : Ready side subs C K w)
    (hs : Settled side subs s g bound ret K w) (hD : D (w.env side).inlining s) (hg : g.Of s)
    (hcuts : ∀ a b, g.isBackEdge a b → cuts)
    (h : settleBlock settle expand side g post t u w = .ok c w') :
    ∃ K', Walked side cuts K K' w w' ∧ Settled side subs s g bound ret K' w' ∧
      (w'.env side).inlining = (w.env side).inlining ∧ K' c ∧
      Good subs s g bound ret (w'.env side).vars t u c := by
  obtain ⟨targets, w₁, htargets, h₁⟩ := bind_ok h
  obtain ⟨K₁, hw₁, hs₁, hi₁, hlookup, hsome⟩ := successorPres_ok hset hw hs hD hg hcuts htargets
  obtain ⟨after, w₂, ha, h₂⟩ := bind_ok h₁
  obtain ⟨b, w₃, hb, h₃⟩ := bind_ok h₂
  obtain ⟨hblock, rfl⟩ := present_ok hb
  rw [hg.blocks] at hblock
  obtain ⟨⟨b, n⟩, ht, rfl⟩ := Option.map_eq_some_iff.mp hblock
  obtain ⟨rfl, hafter⟩ := trailing_ok hg ht hs₁.retPost ha
  obtain ⟨v, w₄, hv, h₄⟩ := bind_ok h₃
  obtain ⟨hw₄, he₄⟩ := modifyEnv_later (fun e => .of_frame cuts ..) hv
  have hKafter : K₁ after := by
    cases hnext : behind? (b, n) with
    | some next =>
      rw [hnext] at hafter
      exact (hlookup _ _ hafter).1
    | none =>
      rw [hnext] at hafter
      cases hafter
      exact hs₁.retK
  have hi₄ : (w₄.env side).inlining = (w.env side).inlining := by rw [he₄]; exact hi₁
  have hp : Placed side K₁ targets ret w₄ :=
    ⟨by rw [he₄]; exact hs₁.retPost, by rw [he₄], hs₁.retK, fun hk => (hlookup _ _ hk).1⟩
  obtain ⟨K₂, hw₅, hs₅, hi₅, hKc, hc⟩ := visitBlock_ok (u := u) hdom hx
    ((hw.walked hw₁).walked (hw₄ K₁))
    (hs₁.walked (hw₄ K₁) (by rw [he₄]) (by rw [he₄]) (by rw [he₄])) hp hKafter (by rw [he₄])
    (hi₄ ▸ hD) ht
    (fun T c hT => good_of_blk hg ht
      (fun x k hk => (hlookup x k hk).2.grows ((hw₄ K₁).later.vars.trans hT)) hsome hafter) h₄
  exact ⟨K₂, (hw₁.trans (hw₄ K₁)).trans hw₅, hs₅, hi₅.trans hi₄, hKc, hc⟩

/-! ### Subroutines -/

theorem mkVars_ok (cuts : Prop) (K : Constr → Prop) {vs : List Var} {v : PUnit}
    (h : (forIn vs PUnit.unit fun v _ => do
      let _ ← on side (Env.mkVar v)
      pure (ForInStep.yield PUnit.unit) : Walk PUnit) w = .ok v w') :
    Walked side cuts K K w w' ∧ Stays side w w' ∧
      ∀ v ∈ vs, ((w'.env side).vars.lookup v).isSome := by
  induction vs generalizing w with
  | nil =>
    cases h
    exact ⟨.refl .., .refl .., nofun⟩
  | cons x vs ih =>
    rw [List.forIn_cons] at h
    obtain ⟨r, w₁, hr, h₁⟩ := bind_ok h
    obtain ⟨t, w₂, ht, h₂⟩ := bind_ok hr
    cases h₂
    obtain ⟨hw₁, hs₁, hx⟩ := mkVar_ok cuts K ht
    obtain ⟨hw₂, hs₂, hvs⟩ := ih h₁
    refine ⟨hw₁.trans hw₂, hs₁.trans hs₂, fun y hy => ?_⟩
    rcases List.mem_cons.mp hy with rfl | hy
    · rw [hw₂.later.vars _ _ hx]
      rfl
    · exact hvs y hy

/-- What the walk of a subroutine gives. -/
structure Entered (side : Side) (cuts : Prop) (subs : List Sub) (s : Sub) (post : Constr)
    (K K' : Constr → Prop) (w w' : World) (g : Graph) (c : Constr) : Prop where
  walked : Walked side cuts K K' w w'
  inlining : (w'.env side).inlining = (w.env side).inlining
  vars : v ∈ s.vars → ((w'.env side).vars.lookup v).isSome
  pre : K' c
  good : Good subs s g (w.env side).unrollBound post (w'.env side).vars g.entry [] c

theorem enterSub_ok (hset : Settles side cuts subs D C settle) (hw : Ready side subs C K w)
    (hpost : K post) (hD : D (w.env side).inlining s)
    (hkept : (w.env side).frame.root = some (s.tid, post.id) → ∀ g, Graph.ofSub s = .ok g →
      ∀ t u c, (w.env side).frame.preconds[(t, u)]? = some c →
        K c ∧ Good subs s g (w.env side).unrollBound post (w.env side).vars t u c)
    (hcuts : ∀ g, Graph.ofSub s = .ok g → ∀ a b, g.isBackEdge a b → cuts)
    (h : enterSub settle side post s w = .ok c w') :
    ∃ K' g, Graph.ofSub s = .ok g ∧ Entered side cuts subs s post K K' w w' g c := by
  obtain ⟨v₁, w₁, hv₁, h₁⟩ := bind_ok h
  obtain ⟨hw₁, he₁⟩ := modifyEnv_later (fun e => .of_frame cuts ..) hv₁
  obtain ⟨g, w₂, hlift, h₂⟩ := bind_ok h₁
  obtain ⟨hgraph, rfl⟩ := ofExcept_ok hlift
  obtain ⟨v₃, w₃, hv₃, h₃⟩ := bind_ok h₂
  obtain ⟨hw₃, hs₃, hvars⟩ := mkVars_ok cuts K hv₃
  obtain ⟨e, w₄, he, h₄⟩ := bind_ok h₃
  obtain ⟨rfl, rfl⟩ := env_ok he
  obtain ⟨v₅, w₅, hv₅, h₅⟩ := bind_ok h₄
  obtain ⟨hw₅, he₅⟩ := modifyEnv_later (fun e => .of_frame cuts ..) hv₅
  obtain ⟨w₆, hsettle, hw₆, he₆⟩ := restoring_later (fun e => .of_frame cuts ..) h₅
  have hbefore := ((hw₁ K).trans hw₃).trans (hw₅ K)
  have hf : (w₄.env side).frame = (w.env side).frame := by rw [hs₃.frame, he₁]
  have hi : (w₅.env side).inlining = (w.env side).inlining := by
    rw [he₅]
    exact hs₃.inlining.trans (by rw [he₁])
  have hs : Settled side subs s g (w.env side).unrollBound post K w₅ := by
    refine ⟨hbefore.later.unrollBound, by rw [he₅], by rw [he₅], hpost, fun {t u c} hk => ?_⟩
    rw [he₅] at hk
    dsimp only at hk
    rw [hf] at hk
    split at hk
    · rename_i hroot
      obtain ⟨hc, hgood⟩ := hkept hroot g hgraph t u c hk
      exact ⟨hc, hgood.grows hbefore.later.vars⟩
    · cases (Std.HashMap.getElem?_empty ..).symm.trans hk
  obtain ⟨K', hw', -, hi', hc, hgood⟩ := hset (hw.walked hbefore) hs (hi ▸ hD)
    (Graph.of_ofSub hgraph) (hcuts g hgraph) hsettle
  refine ⟨K', g, hgraph, (hbefore.trans hw').trans (hw₆ K'), ?_, fun {v} hv => ?_, hc, ?_⟩
  · rw [he₆]
    exact hi'.trans hi
  · have hmem : v ∈ sortByName s.vars := (List.mergeSort_perm ..).mem_iff.mpr hv
    obtain ⟨x, hx⟩ := Option.isSome_iff_exists.mp (hvars v hmem)
    rw [(((hw₅ K).trans hw').trans (hw₆ K')).later.vars _ _ hx]
    rfl
  · exact hgood.grows (hw₆ K').later.vars

/-- Callees without cycles are expanded exactly. -/
theorem expands_enterSub (hdom : Domain subs D C) (hset : Settles side cuts subs D C settle) :
    Expands side cuts subs D C (enterSub settle) := by
  intro K w w' post c s hw hpost hC hD hroot h
  obtain ⟨K', g, hgraph, he⟩ := enterSub_ok hset hw hpost hD (fun hr => nomatch hroot.symm.trans hr)
    (fun g hgraph a b hab => absurd hab (Bool.eq_false_iff.mp
      ((hdom.acyclic hC hgraph).isBackEdge (Graph.of_ofSub hgraph) a b))) h
  have hg := Graph.of_ofSub hgraph
  refine ⟨K', he.walked, he.inlining, he.pre, g.entry, hg.entry, fun V hV hsep m => ?_⟩
  cases he.good V hV hsep m with
  | returns ho hr hb => exact .inl ⟨_, _, ho, hr, hb⟩
  | strays hr => exact .inr ⟨_, _, hr⟩
  | cut _ _ ho => exact absurd ho ((hdom.acyclic hC hgraph).not_overruns hg)

/-- Settling keeps what is kept faithful, whatever the depth. -/
theorem settleNode_ok (hdom : Domain subs D C) (fuel : Nat) :
    Settles side cuts subs D C (settleNode fuel) := by
  induction fuel with
  | zero =>
    intro K w w' post ret c s g bound t u _ _ _ _ _ h
    cases h
  | succ fuel ih =>
    intro K w w' post ret c s g bound t u hw hs hD hg hcuts h
    rw [settleNode] at h
    obtain ⟨e, w₀, he, h₁⟩ := bind_ok h
    obtain ⟨rfl, rfl⟩ := env_ok he
    obtain ⟨g', w₁, hpresent, h₂⟩ := bind_ok h₁
    obtain ⟨hg', rfl⟩ := present_ok hpresent
    cases hg'.symm.trans hs.graph
    obtain ⟨e, w₂, he, h₃⟩ := bind_ok h₂
    obtain ⟨rfl, rfl⟩ := env_ok he
    cases hk : (w₂.env side).precond? t (g.restrict u t) with
    | some k =>
      rw [hk] at h₃
      cases h₃
      obtain ⟨hc, hgood⟩ := hs.kept hk
      exact ⟨K, .refl .., hs, rfl, hc, hgood⟩
    | none =>
      rw [hk] at h₃
      obtain ⟨v, w₃, hv, h₄⟩ := bind_ok h₃
      obtain ⟨K₁, hw₁, hs₁, hi₁⟩ := settleForward_ok ih hw hs hD hg hcuts hv
      obtain ⟨K₂, hw₂, hs₂, hi₂, hc, hgood⟩ := settleBlock_ok hdom ih (expands_enterSub hdom ih)
        (hw.walked hw₁) hs₁ (hi₁ ▸ hD) hg hcuts h₄
      exact ⟨K₂, hw₁.trans hw₂, hs₂, hi₂.trans hi₁, hc, hgood⟩

/-- The walk of a subroutine gives the faithful precondition of its entry. -/
theorem visitSub_ok (hdom : Domain subs D C) (hw : Ready side subs C K w) (hpost : K post)
    (hD : D (w.env side).inlining s)
    (hkept : (w.env side).frame.root = some (s.tid, post.id) → ∀ g, Graph.ofSub s = .ok g →
      ∀ t u c, (w.env side).frame.preconds[(t, u)]? = some c →
        K c ∧ Good subs s g (w.env side).unrollBound post (w.env side).vars t u c)
    (hcuts : ∀ g, Graph.ofSub s = .ok g → ∀ a b, g.isBackEdge a b → cuts)
    (h : visitSub side post s w = .ok c w') :
    ∃ K' g, Graph.ofSub s = .ok g ∧ Entered side cuts subs s post K K' w w' g c := by
  obtain ⟨e, w₀, he, h₁⟩ := bind_ok h
  obtain ⟨rfl, rfl⟩ := env_ok he
  exact enterSub_ok (settleNode_ok hdom _) hw hpost hD hkept hcuts h₁

end Precond.Walk

import Precond.Proofs.Walk.Around
import Precond.Proofs.Walk.Lockstep
import Precond.Proofs.Walk.Plain

/-! What a frame keeps is what the walk comes to that keeps nothing. Each kept precondition can be made
anew: from the same place in a later world, the walk that keeps nothing comes to one with the same
formula (`Walk.Replays`). Whatever settles a copy of a block keeps only such preconditions, however it
ends (`Walk.settleNode_retraces`). -/

namespace Precond

open IR Precond.Flow Relation

/-! ### Places -/

namespace World

/-- The second world is later than the first, at the same place in a frame. -/
structure Onward (side : Side) (w w₁ : World) : Prop where
  before : w.Before w₁
  inlining (side' : Side) : (w₁.env side').inlining = (w.env side').inlining
  unrollBound : (w₁.env side).unrollBound = (w.env side).unrollBound
  graph : (w₁.env side).frame.graph = (w.env side).frame.graph
  retPost : (w₁.env side).frame.retPost = (w.env side).frame.retPost

/-- The second world is later than the first, at a place like that of the first. -/
structure Rejoins (S : Scope) (side : Side) (w v : World) : Prop where
  under : v.Under S
  before : w.Before v
  inlining (side' : Side) : (v.env side').inlining = (w.env side').inlining
  unrollBound : (v.env side).unrollBound = (w.env side).unrollBound
  graph : (v.env side).frame.graph = (w.env side).frame.graph
  retPost : Option.Rel (fun c d => d.plain = c.plain) (w.env side).frame.retPost
    (v.env side).frame.retPost

variable {S : Scope} {side : Side} {w w₁ w₂ v v₁ : World}

theorem Onward.trans (h₁ : w.Onward side w₁) (h₂ : w₁.Onward side w₂) : w.Onward side w₂ where
  before := h₁.before.trans h₂.before
  inlining side' := (h₂.inlining side').trans (h₁.inlining side')
  unrollBound := h₂.unrollBound.trans h₁.unrollBound
  graph := h₂.graph.trans h₁.graph
  retPost := h₂.retPost.trans h₁.retPost

theorem Onward.of_kept {B : Copy → Prop} {R : Side → String → CallRule → Prop}
    (h : w.Kept R (Walk.At side (Walk.Filled B)) w₁) : w.Onward side w₁ := by
  have hf := (h.env side).frame
  rw [Walk.at_self] at hf
  exact ⟨h.before, fun side' => (h.env side').inlining, (h.env side).unrollBound, hf.graph, hf.retPost⟩

theorem Onward.of_frame {R : Side → String → CallRule → Prop} {F : Side → Frame → Frame → Prop}
    (h : w.Kept R F w₁) (hf : (w₁.env side).frame = (w.env side).frame) : w.Onward side w₁ where
  before := h.before
  inlining side' := (h.env side').inlining
  unrollBound := (h.env side).unrollBound
  graph := hf ▸ rfl
  retPost := hf ▸ rfl

theorem Rejoins.of_onward (h : w.Onward side w₁) (hv : w₁.Rejoins S side v) : w.Rejoins S side v where
  under := hv.under
  before := h.before.trans hv.before
  inlining side' := (hv.inlining side').trans (h.inlining side')
  unrollBound := hv.unrollBound.trans h.unrollBound
  graph := hv.graph.trans h.graph
  retPost := h.retPost ▸ hv.retPost

/-- The first world has come up to the second. -/
theorem Rejoins.onward (h : w.Onward side w₁) (hv : w.Rejoins S side v) (hw : w₁.Before v) :
    w₁.Rejoins S side v where
  under := hv.under
  before := hw
  inlining side' := (hv.inlining side').trans (h.inlining side').symm
  unrollBound := hv.unrollBound.trans h.unrollBound.symm
  graph := hv.graph.trans h.graph.symm
  retPost := h.retPost ▸ hv.retPost

end World

/-- The constraints of both walks have the same formulas. -/
def Twin.same (S : Scope) (side : Side) (bound : Int) : Twin where
  scope := S
  side := side
  constants := False
  numbered := False
  low := 0
  bound := bound
  bound' := bound
  rel c d := d.plain = c.plain
  goal _ := rfl
  clause _ hh hg := by
    have hcopied {cs ds : List Constr} (h : List.Forall₂ (Copied 0) cs ds) :
        Constr.plains ds = Constr.plains cs := by
      induction h with
      | nil => rfl
      | cons hc _ ih =>
        cases hc
        rw [Constr.plains, Constr.plains, ih]
        rfl
    have hsame {cs ds : List Constr} (h : List.Forall₂ (fun c d => d.plain = c.plain) cs ds) :
        Constr.plains ds = Constr.plains cs := by
      induction h with
      | nil => rfl
      | cons hc _ ih => rw [Constr.plains, Constr.plains, ih, hc]
    rw [Constr.plain, Constr.plain, hcopied hh, hsame hg]
  branch _ hy hn := by rw [Constr.plain, Constr.plain, hy, hn]
  subst _ hc _ := by rw [Constr.plain, Constr.plain, hc]

theorem Twin.same_side (S : Scope) (side : Side) (bound : Int) : (same S side bound).side = side := rfl

namespace Walk

variable {S : Scope} {side : Side} {bound : Int} {g : Graph} {K K₁ : Constr → Prop}
  {z : Option World} {w w₁ v v₁ : World} {t : String} {u : Unroll} {c : Constr}

/-- What the elements of a copy of a block start from where nothing is kept. -/
def plainSurroundings (settle : Settle) (side : Side) (g : Graph) (post : Constr) (t : String)
    (u : Unroll) : Walk (Table String Constr × Constr) := do
  let ahead ← aheadPres settle side g post u (g.forward t)
  let targets ← edgePres settle side g post t u ahead (g.succsOf t)
  return (targets, ← trailing side g targets t)

theorem rel_imp {R Q : α → β → Prop} {o : Option α} {o' : Option β} (h : Option.Rel R o o')
    (hRQ : ∀ a b, o = some a → R a b → Q a b) : Option.Rel Q o o' := by
  cases h with
  | some h => exact .some (hRQ _ _ rfl h)
  | none => exact .none

theorem rel_self {R : α → α → Prop} {o : Option α} (h : ∀ a, R a a) : Option.Rel R o o := by
  cases o with
  | some a => exact .some (h a)
  | none => exact .none

/-! ### What is kept -/

/-- From a place like this one in a later world, the walk that keeps nothing comes to a precondition
with the same formula for the copy of a block, and changes no table. -/
def Replays (S : Scope) (side : Side) (w : World) (t : String) (u : Unroll) (c : Constr) : Prop :=
  ∀ v post, w.Rejoins S side v → ∃ d v₁, Eventually (fun n => plainNode n side post t u) v d v₁ ∧
    d.plain = c.plain ∧ v.Same v₁ ∧ w.Rejoins S side v₁

theorem Replays.onward (h : Replays S side w t u c) (hw : w.Onward side w₁) :
    Replays S side w₁ t u c := by
  intro v post hv
  obtain ⟨d, v₁, hd, hplain, hsame, hv₁⟩ := h v post (.of_onward hw hv)
  exact ⟨d, v₁, hd, hplain, hsame, hv₁.onward hw (hv.before.trans hsame.before)⟩

/-- All that a frame keeps can be made anew. -/
def Replaying (S : Scope) (side : Side) (w : World) : Prop :=
  ∀ t u c, (w.env side).precond? t u = some c → Replays S side w t u c

/-- The walk is in the graph of a subroutine. -/
structure InGraph (S : Scope) (side : Side) (bound : Int) (g : Graph) (w : World) : Prop where
  under : w.Under S
  unrollBound : (w.env side).unrollBound = bound
  graph : (w.env side).frame.graph = some g

/-- Any constraint may be a node. -/
abbrev Any : Constr → Prop := fun _ => True

/-- The second constraint has the formula of the first. -/
abbrev Recast (S : Scope) (side : Side) (bound : Int) : Constr → Constr → Prop :=
  (Twin.same S side bound).Held Any

/-- Two walks at like places; the second one keeps nothing. -/
structure Joined (S : Scope) (side : Side) (bound : Int) (g : Graph) (z : Option World) (w v : World) :
    Prop extends InGraph S side bound g w where
  linked : (Twin.same S side bound).Linked z Any w v
  opened : (Twin.same S side bound).Opened Any g w v

/-- Which constraints are nodes does not matter. -/
theorem linked_any (h : (Twin.same S side bound).Linked z K w v) :
    (Twin.same S side bound).Linked z Any w v := { h with register := False.elim }

theorem InGraph.rejoined (hS : ¬ S.draws) (h : InGraph S side bound g w) (hv : w.Rejoins S side v) :
    Joined S side bound g (some v) w v where
  toInGraph := h
  linked := {
    under := h.under
    under' := hv.under
    settled := fun hd => absurd hd hS
    tied := ⟨hv.before, .refl v⟩
    inlining := hv.inlining
    register := False.elim
    low := Nat.zero_le _
    constant := False.elim
    bound := h.unrollBound
    bound' := hv.unrollBound.trans h.unrollBound }
  opened := {
    graph := h.graph
    graph' := hv.graph.trans h.graph
    retPost := rel_imp hv.retPost fun _ _ _ h => ⟨True.intro, h⟩ }

theorem Joined.rejoins (h : Joined S side bound g z w v) : w.Rejoins S side v where
  under := h.linked.under'
  before := h.linked.tied.before
  inlining := h.linked.inlining
  unrollBound := h.linked.bound'.trans h.unrollBound.symm
  graph := h.opened.graph'.trans h.graph.symm
  retPost := rel_imp h.opened.retPost fun _ _ _ hc => hc.rel

/-- The second walk is back at the same place. -/
theorem Joined.back (h : Joined S side bound g z w v) (hs : v.Same v₁) (hv : w.Rejoins S side v₁) :
    Joined S side bound g z w v₁ where
  toInGraph := h.toInGraph
  linked := { h.linked with
    under' := hv.under
    tied := h.linked.tied.moved (.refl w) hs
    inlining := hv.inlining
    bound' := hv.unrollBound.trans h.unrollBound }
  opened := {
    graph := h.graph
    graph' := hv.graph.trans h.graph
    retPost := rel_imp hv.retPost fun _ _ _ h => ⟨True.intro, h⟩ }

theorem linked_self (hw : w.Under S) (hb : (w.env side).unrollBound = bound) :
    (Twin.same S side bound).Linked none Any w w where
  under := hw
  under' := hw
  settled _ := rfl
  tied := World.Same.refl w
  inlining _ := rfl
  register := False.elim
  low := Nat.zero_le _
  constant := False.elim
  bound := hb
  bound' := hb

/-- A walk beside itself. -/
theorem InGraph.joined (h : InGraph S side bound g w) : Joined S side bound g none w w where
  toInGraph := h
  linked := linked_self h.under h.unrollBound
  opened := {
    graph := h.graph
    graph' := h.graph
    retPost := rel_self fun _ => ⟨True.intro, rfl⟩ }

/-- An action that leaves the walk in the graph. -/
theorem InGraph.onward {F : Side → Frame → Frame → Prop} (h : InGraph S side bound g w)
    (hw : w.Kept S.rule F w₁) (hg : (w₁.env side).frame.graph = (w.env side).frame.graph) :
    InGraph S side bound g w₁ where
  under := hw.under h.under
  unrollBound := (hw.env side).unrollBound.trans h.unrollBound
  graph := hg.trans h.graph

theorem Replaying.stays (h : Replaying S side w) (hw : w.Onward side w₁)
    (hf : (w₁.env side).frame = (w.env side).frame) : Replaying S side w₁ :=
  fun t u c hc => (h t u c (by rwa [Env.precond?, hf] at hc)).onward hw

/-! ### Walks that retrace another -/

/-- If the first action succeeds before the later world, the second one, which keeps nothing, does so
too. However the first action ends, what is kept can be made anew. -/
structure Retraces (S : Scope) (side : Side) (bound : Int) (g : Graph) (A : World → α → β → Prop)
    (x : Walk α) (x' : Nat → Walk β) (w : World) : Prop where
  run {z : Option World} {v : World} {a : α} {w₁ : World} : Joined S side bound g z w v →
    Replaying S side w → x w = .ok a w₁ → UpTo z w₁ → ∃ b v₁, Eventually x' v b v₁ ∧
      Joined S side bound g z w₁ v₁ ∧ Replaying S side w₁ ∧ A w₁ a b
  fails {f : Fault} {w₁ : World} : InGraph S side bound g w → Replaying S side w →
    x w = .error f w₁ → InGraph S side bound g w₁ ∧ Replaying S side w₁

/-- A copy of a block has been settled: the precondition is kept. -/
def Shelved (S : Scope) (side : Side) (bound : Int) (t : String) (u : Unroll) (w : World)
    (c d : Constr) : Prop :=
  Recast S side bound c d ∧ (w.env side).precond? t u = some c

/-- What is kept for forward successors is what the second walk has got for them. -/
def Ahead (S : Scope) (side : Side) (bound : Int) (g : Graph) (u : Unroll) (succs : List String)
    (w : World) (ahead : Table String Constr) : Prop :=
  ∀ s ∈ succs, ∃ c d, (w.env side).precond? s (g.restrict u s) = some c ∧ ahead.lookup s = some d ∧
    Recast S side bound c d

namespace Retraces

variable {A A₁ : World → α → β → Prop} {B : World → γ → δ → Prop} {P : Copy → Prop}

theorem pure {a : α} {b : β} (h : A w a b) :
    Retraces S side bound g A (Pure.pure a) (fun _ => Pure.pure b) w where
  run {z v a' w₁} hj hr ha _ := by
    cases ha
    exact ⟨b, v, .of_ok rfl, hj, hr, h⟩
  fails _ _ hf := nomatch hf

theorem throw (f : Fault) {x' : Nat → Walk β} :
    Retraces S side bound g A (MonadExcept.throw f) x' w where
  run _ _ ha := nomatch ha
  fails {f' w₁} hF hr hf := by
    cases hf
    exact ⟨hF, hr⟩

theorem bind {x : Walk α} {x' : Nat → Walk β} {k : α → Walk γ} {k' : Nat → β → Walk δ}
    (hx : Retraces S side bound g A x x' w) (hkeep : ∀ a, Fills S side g P (k a))
    (hk : ∀ a w₁ b, A w₁ a b → Retraces S side bound g B (k a) (fun n => k' n b) w₁) :
    Retraces S side bound g B (x >>= k) (fun n => x' n >>= k' n) w where
  run {z v c w₂} hj hr hc hz := by
    obtain ⟨a, w₁, ha, h₁⟩ := bind_ok hc
    obtain ⟨_, _, -, hw₁, -⟩ := hx.run hj.toInGraph.joined hr ha True.intro
    obtain ⟨b, v₁, hb, hj₁, hr₁, hA⟩ := hx.run hj hr ha
      (hz.of_before ((hkeep a).of_ok hw₁.under hw₁.graph h₁).before)
    obtain ⟨d, v₂, hd, hj₂, hr₂, hB⟩ := (hk a w₁ b hA).run hj₁ hr₁ h₁ hz
    exact ⟨d, v₂, hb.bind hd, hj₂, hr₂, hB⟩
  fails {f w₂} hF hr hf := by
    rcases bind_error hf with hxw | ⟨a, w₁, hxw, hf⟩
    · exact hx.fails hF hr hxw
    · obtain ⟨b, v₁, -, hj₁, hr₁, hA⟩ := hx.run hF.joined hr hxw True.intro
      exact (hk a w₁ b hA).fails hj₁.toInGraph hr₁ hf

theorem imp {x : Walk α} {x' : Nat → Walk β} (h : Retraces S side bound g A x x' w)
    (hA : ∀ w₁ a b, A w₁ a b → A₁ w₁ a b) : Retraces S side bound g A₁ x x' w where
  run hj hr ha hz := by
    obtain ⟨b, v₁, hb, hj₁, hr₁, hR⟩ := h.run hj hr ha hz
    exact ⟨b, v₁, hb, hj₁, hr₁, hA _ _ _ hR⟩
  fails := h.fails

theorem congr {x y : Walk α} {x' : Nat → Walk β} (hxy : y w = x w)
    (h : Retraces S side bound g A x x' w) : Retraces S side bound g A y x' w where
  run hj hr ha hz := h.run hj hr (hxy ▸ ha) hz
  fails hF hr hf := h.fails hF hr (hxy ▸ hf)

theorem ite {p : Prop} [Decidable p] {x y : Walk α} {x' y' : Nat → Walk β}
    (hx : Retraces S side bound g A x x' w) (hy : Retraces S side bound g A y y' w) :
    Retraces S side bound g A (if p then x else y) (fun n => if p then x' n else y' n) w := by
  split
  · exact hx
  · exact hy

/-- What leaves the walks where they are. -/
theorem alike {x : Walk Constr} {x' : Nat → Walk Constr} (hx : Keeps.Rests S x)
    (h : ∀ z v, Joined S side bound g z w v →
      Alike (Twin.same S side bound) z (Twin.same S side bound).Held x x' Any w v) :
    Retraces S side bound g (fun _ => Recast S side bound) x x' w where
  run {z v a w₁} hj hr ha hz := by
    obtain ⟨b, v₁, K₁, hb, hstep⟩ := (h z v hj).run a w₁ ha hz
    have hw := hx.of_ok hj.under ha
    have hf : (w₁.env side).frame = (w.env side).frame := (hw.env side).frame.symm
    have hopened := hj.opened.step hstep
    refine ⟨b, v₁, hb, ⟨hj.toInGraph.onward hw (by rw [hf]), linked_any hstep.linked, ?_⟩,
      hr.stays (.of_frame hw hf) hf, ⟨True.intro, hstep.result.rel⟩⟩
    exact ⟨hopened.graph, hopened.graph', Twin.Held.option hopened.retPost fun _ _ => True.intro⟩
  fails {f w₁} hF hr hf := by
    have hw := hx.of_error hF.under hf
    have hf₁ : (w₁.env side).frame = (w.env side).frame := (hw.env side).frame.symm
    exact ⟨hF.onward hw (by rw [hf₁]), hr.stays (.of_frame hw hf₁) hf₁⟩

/-- What is kept stays. -/
theorem filling {x : Walk α} {x' : Nat → Walk β} (h : Retraces S side bound g A x x' w)
    (hx : Fills S side g P x) : Retraces S side bound g (fun w₁ a b => A w₁ a b ∧
      ∀ t u c, (w.env side).precond? t u = some c → (w₁.env side).precond? t u = some c) x x' w where
  run hj hr ha hz := by
    obtain ⟨b, v₁, hb, hj₁, hr₁, hA⟩ := h.run hj hr ha hz
    refine ⟨b, v₁, hb, hj₁, hr₁, hA, fun t u c hc => ?_⟩
    have hf := ((hx.of_ok hj.under hj.graph ha).env side).frame
    rw [at_self] at hf
    exact hf.kept hc
  fails := h.fails

/-! ### The surroundings of a copy of a block -/

variable {settle : Settle} {settle' : Nat → Settle} {post post' : Constr} {succs : List String}

theorem forward
    (h : ∀ s ∈ succs, ∀ w, Retraces S side bound g (Shelved S side bound s (g.restrict u s))
      (settle side post s (g.restrict u s)) (fun n => settle' n side post' s (g.restrict u s)) w)
    (hfills : ∀ s ∈ succs, Fills S side g P (settle side post s (g.restrict u s))) :
    Retraces S side bound g (fun w _ => Ahead S side bound g u succs w)
      (settleForward settle side g post u succs)
      (fun n => aheadPres (settle' n) side g post' u succs) w := by
  induction succs generalizing w with
  | nil => exact pure nofun
  | cons s succs ih =>
    have hrest : Fills S side g P (settleForward settle side g post u succs) :=
      .settleForward fun s' hs' => hfills s' (List.mem_cons_of_mem s hs')
    have hih (w) := ih (w := w) (fun s' hs' => h s' (List.mem_cons_of_mem s hs'))
      fun s' hs' => hfills s' (List.mem_cons_of_mem s hs')
    refine (h s List.mem_cons_self w).bind (fun _ => hrest) fun c w₁ d ⟨hcd, hkept⟩ => ?_
    rw [← bind_pure (settleForward settle side g post u succs)]
    refine ((hih w₁).filling hrest).bind (P := P) (fun _ => .rests (.pure _))
      fun _ w₂ ahead ⟨hahead, hstay⟩ => pure fun s' hs' => ?_
    rw [List.lookup_cons]
    by_cases hss : s' = s
    · subst hss
      rw [beq_self_eq_true]
      exact ⟨c, d, hstay _ _ _ hkept, rfl, hcd⟩
    · rw [beq_false_of_ne hss]
      exact hahead s' ((List.mem_cons.mp hs').resolve_left hss)

theorem loopPre {header : String}
    (h : Retraces S side bound g (fun _ => Recast S side bound)
      (settle side post header (u.withCount header (u.count header + 1)))
      (fun n => settle' n side post' header (u.withCount header (u.count header + 1))) w) :
    Retraces S side bound g (fun _ => Recast S side bound)
      (loopPre settle side post header u) (fun n => loopPre (settle' n) side post' header u) w := by
  have hcut : Retraces S side bound g (fun _ => Recast S side bound) (do
      on side (Env.note .loopBound header
        ("back-edge cut after " ++ toString bound ++ " unrolling(s)"))
      trivial) (fun _ => do
      on side (Env.note .loopBound header
        ("back-edge cut after " ++ toString bound ++ " unrolling(s)"))
      trivial) w := by
    refine .alike ((Keeps.note ..).bind fun _ => .mkGoal ..) fun z v hj => ?_
    exact .after hj.linked (.on (.note ..)) (fun _ => .mkGoal ..) fun _ w₁ v₁ _ h₁ =>
      .makes h₁.linked (.mkGoal ..)
  have heq {settle : Settle} {post : Constr} {v : World} (hb : (v.env side).unrollBound = bound) :
      Walk.loopPre settle side post header u v = (if bound ≤ u.count header + 1 then do
        on side (Env.note .loopBound header
          ("back-edge cut after " ++ toString bound ++ " unrolling(s)"))
        trivial
      else settle side post header (u.withCount header (u.count header + 1))) v := by
    rw [← hb]
    rfl
  have hall := hcut.ite (p := bound ≤ ↑(u.count header + 1)) h
  refine ⟨fun {z v a w₁} hj hr ha hz => ?_, fun {f w₁} hF hr hf => ?_⟩
  · rw [heq hj.unrollBound] at ha
    obtain ⟨b, v₁, ⟨m, hm⟩, hrest⟩ := hall.run hj hr ha hz
    exact ⟨b, v₁, ⟨m, fun n hn => (heq hj.linked.bound').trans (hm n hn)⟩, hrest⟩
  · rw [heq hF.unrollBound] at hf
    exact hall.fails hF hr hf

/-- The preconditions of successors. -/
theorem edges {ahead : Table String Constr} (hsuccs : ∀ s ∈ succs, s ∈ g.succsOf t)
    (hahead : Ahead S side bound g u (g.forward t) w ahead)
    (h : ∀ s ∈ succs, g.isBackEdge t s → ∀ w, Retraces S side bound g (fun _ => Recast S side bound)
      (settle side post s (u.withCount s (u.count s + 1)))
      (fun n => settle' n side post' s (u.withCount s (u.count s + 1))) w)
    (hfills : ∀ s ∈ succs, g.isBackEdge t s →
      Fills S side g P (settle side post s (u.withCount s (u.count s + 1)))) :
    Retraces S side bound g (fun _ => (Twin.same S side bound).Listed Any)
      (successorPres settle side g post t u succs)
      (fun n => edgePres (settle' n) side g post' t u ahead succs) w := by
  induction succs generalizing w with
  | nil => exact pure .nil
  | cons s succs ih =>
    have hrest : Fills S side g P (successorPres settle side g post t u succs) :=
      .successorPres fun s' hs' => hfills s' (List.mem_cons_of_mem s hs')
    have hcons {w₁ : World} {c d : Constr} (hcd : Recast S side bound c d)
        (hahead₁ : Ahead S side bound g u (g.forward t) w₁ ahead) :
        Retraces S side bound g (fun _ => (Twin.same S side bound).Listed Any)
          (do return (s, c) :: (← successorPres settle side g post t u succs))
          (fun n => do return (s, d) :: (← edgePres (settle' n) side g post' t u ahead succs)) w₁ :=
      (ih (fun s' hs' => hsuccs s' (List.mem_cons_of_mem s hs')) hahead₁
        (fun s' hs' => h s' (List.mem_cons_of_mem s hs'))
        fun s' hs' => hfills s' (List.mem_cons_of_mem s hs')).bind (P := P) (fun _ => .rests (.pure _))
          fun _ _ _ hlist => pure (.cons ⟨rfl, hcd⟩ hlist)
    rw [successorPres]
    simp only [edgePres]
    by_cases hb : g.isBackEdge t s
    · simp only [if_pos hb]
      refine ((loopPre (h s List.mem_cons_self hb w)).filling
        (.loopPre (hfills s List.mem_cons_self hb))).bind
        (fun _ => hrest.bind fun _ => .rests (.pure _)) fun c w₁ d hret => ?_
      obtain ⟨hcd, hstay⟩ := hret
      refine hcons hcd fun s' hs' => ?_
      obtain ⟨c', d', hc', hd', hcd'⟩ := hahead s' hs'
      exact ⟨c', d', hstay _ _ _ hc', hd', hcd'⟩
    · simp only [if_neg hb]
      have hs : s ∈ g.forward t := List.mem_filter.mpr ⟨hsuccs s List.mem_cons_self, by simpa using hb⟩
      obtain ⟨c, d, hc, hd, hcd⟩ := hahead s hs
      rw [hd]
      refine congr ?_ (hcons hcd hahead)
      show (Walk.present ((w.env side).precond? s (g.restrict u s)) >>= _) w = _
      rw [hc]
      rfl

/-- What holds behind the last jump of a block. -/
theorem trailing {targets targets' : Table String Constr}
    (h : (Twin.same S side bound).Listed Any targets targets') :
    Retraces S side bound g (fun _ => Recast S side bound)
      (trailing side g targets t) (fun _ => trailing side g targets' t) w := by
  refine .alike (Fills.trailing ..) fun z v hj => ?_
  have hpresent {o o' : Option Constr} (h : Option.Rel (Recast S side bound) o o') :
      Alike (Twin.same S side bound) z (Twin.same S side bound).Held (Walk.present o)
        (fun _ => Walk.present o') Any w v := by
    cases h with
    | some h => exact .pure hj.linked h
    | none => exact .throw _
  unfold Walk.trailing
  split
  · exact hpresent (h.lookup _)
  · exact .env (hpresent hj.opened.retPost)

theorem surroundings
    (hforward : ∀ s ∈ g.forward t, ∀ w, Retraces S side bound g (Shelved S side bound s (g.restrict u s))
      (settle side post s (g.restrict u s)) (fun n => settle' n side post' s (g.restrict u s)) w)
    (hback : ∀ s ∈ g.succsOf t, g.isBackEdge t s → ∀ w,
      Retraces S side bound g (fun _ => Recast S side bound)
        (settle side post s (u.withCount s (u.count s + 1)))
        (fun n => settle' n side post' s (u.withCount s (u.count s + 1))) w)
    (hfills : ∀ s ∈ g.forward t, Fills S side g P (settle side post s (g.restrict u s)))
    (hfills' : ∀ s ∈ g.succsOf t, g.isBackEdge t s →
      Fills S side g P (settle side post s (u.withCount s (u.count s + 1)))) :
    Retraces S side bound g
      (fun _ p q => (Twin.same S side bound).Listed Any p.1 q.1 ∧ Recast S side bound p.2 q.2)
      (surroundings settle side g post t u)
      (fun n => plainSurroundings (settle' n) side g post' t u) w := by
  have hedges : Fills S side g P (successorPres settle side g post t u (g.succsOf t)) :=
    .successorPres hfills'
  have hlast {targets : Table String Constr} :
      Fills S side g P (do return (targets, ← Walk.trailing side g targets t)) :=
    (Fills.rests (Fills.trailing ..)).bind fun _ => .rests (.pure _)
  refine (forward hforward hfills).bind (P := P) (fun _ => hedges.bind fun _ => hlast)
    fun _ w₁ ahead hahead => ?_
  refine (edges (fun _ hs => hs) hahead hback hfills').bind (P := P) (fun _ => hlast)
    fun targets w₂ targets' hlist => ?_
  exact (trailing hlist).bind (P := P) (fun _ => .rests (.pure _)) fun after w₃ after' hafter =>
    pure ⟨hlist, hafter⟩

end Retraces

/-! ### Copies of blocks -/

section

variable {expand : Expand} {s : Sub} {b : Blk} {targets targets' : Table String Constr}
  {post post' after after' : Constr}

/-- The elements of a block, where the walk that keeps nothing is at a like place. -/
theorem visitBlock_joined {expand' : Nat → Expand}
    (hx : (Twin.same S side bound).Expanded z expand expand') (hs : S.body side s) (hb : b ∈ s.blks)
    (hj : Joined S side bound g z w v) (hnew : (w.env side).precond? b.tid u = none)
    (htargets : (Twin.same S side bound).Listed Any targets targets')
    (hafter : Recast S side bound after after')
    (h : visitBlock expand side after b (placedAt w side g targets t u) = .ok c w₁)
    (hz : UpTo z w₁) : ∃ d v₁,
      Eventually (fun n => visitElts (expand' n) side after' b.elts) (placedAt v side g targets' t u) d v₁ ∧
      Joined S side bound g z w₁ v₁ ∧ Recast S side bound c d := by
  have hexpands : Keeps.Expands S side expand := hx.expands
  obtain ⟨w₂, hrun, hw₂, rfl⟩ := visitBlock_inv hexpands hs hb hj.under hnew h
  have hw₁ := (visitBlock_precond hexpands hs hb hj.under hnew h).1
  have hl₀ : (Twin.same S side bound).Linked z Any (elements w side g targets t u b)
      (placedAt v side g targets' t u) :=
    hj.linked.setEnv rfl rfl (hj.linked.inlining side) rfl rfl
  have ho₀ : (Twin.same S side bound).Opened Any g (elements w side g targets t u b)
      (placedAt v side g targets' t u) := hj.opened.placed rfl rfl rfl rfl
  have hp₀ : (Twin.same S side bound).Placed Any (elements w side g targets t u b)
      (placedAt v side g targets' t u) := by
    refine ⟨ho₀.retPost, fun t' => ?_, ?_⟩ <;> rw [Twin.same_side, elements, placedAt, World.env_setEnv,
      World.env_setEnv]
    exact htargets.lookup t'
  obtain ⟨d, v₁, K₁, hd, hstep⟩ := (Alike.visitElts hx hs hb (fun _ he => he) hl₀ hp₀ hafter).run c w₂ hrun
    (hz.of_before (World.Same.before (World.same_setEnv rfl)))
  have hsame : w₂.Same (w₂.setEnv side ((w₂.env side).addPrecond b.tid u c)) := World.same_setEnv rfl
  have hl₁ := hstep.linked.moved hsame (.refl v₁) (World.nodes_setEnv ..) (fun side' => ?_)
    (by rw [Twin.same_side, World.env_setEnv]; rfl) rfl
  · have ho₁ := ho₀.step hstep
    have hgraph : ((w₂.setEnv side ((w₂.env side).addPrecond b.tid u c)).env side).frame.graph = some g :=
      (graph_of_kept hw₁).trans hj.graph
    refine ⟨d, v₁, hd, ⟨hj.toInGraph.onward hw₁ (graph_of_kept hw₁), linked_any hl₁, hgraph, ho₁.graph', ?_⟩,
      ⟨True.intro, hstep.result.rel⟩⟩
    rw [Twin.same_side, World.env_setEnv]
    exact Twin.Held.option ho₁.retPost fun _ _ => True.intro
  · have hi := hstep.linked.inlining side'
    by_cases hs : side' = side
    · subst hs
      rw [World.env_setEnv]
      exact hi
    · rw [World.env_setEnv_of_ne _ _ _ hs]
      exact hi

end

/-! ### Subroutines -/

section

variable {settle : Settle} {settle' : Nat → Settle} {s : Sub} {post post' : Constr}

/-- What a frame keeps for the subroutine and the postcondition can be made anew. -/
def Trusted (S : Scope) (side : Side) (s : Sub) (post : Constr) (w : World) : Prop :=
  ∀ g, Graph.ofSub s = .ok g → (w.env side).frame.root = some (s.tid, post.id) →
    ∀ t u c, (w.env side).precond? t u = some c → Replays S side (opened w side s post g) t u c

theorem opened_frame : ((opened w side s post g).env side).frame = { (w.env side).frame with
    preconds := if (w.env side).frame.root = some (s.tid, post.id) then (w.env side).frame.preconds
      else {}
    root := some (s.tid, post.id)
    graph := some g
    retPost := some post } := by
  rw [opened, World.env_setEnv]

theorem opened_onward (hw : w.Before w₁)
    (hi : ∀ side', (w₁.env side').inlining = (w.env side').inlining)
    (hb : (w₁.env side).unrollBound = (w.env side).unrollBound) :
    (opened w side s post g).Onward side (opened w₁ side s post g) where
  before := hw.setEnv side ⟨(hw side).policy, (hw side).vars, (hw side).inits, (hw side).called,
    (hw side).funcs, (hw side).handlers⟩
  inlining side' := by
    by_cases hs : side' = side
    · rw [hs, opened, opened, World.env_setEnv, World.env_setEnv]
      exact hi side
    · rw [opened, opened, World.env_setEnv_of_ne _ _ _ hs, World.env_setEnv_of_ne _ _ _ hs]
      exact hi side'
  unrollBound := by
    rw [opened, opened, World.env_setEnv, World.env_setEnv]
    exact hb
  graph := by rw [opened_frame, opened_frame]
  retPost := by rw [opened_frame, opened_frame]

/-- What is trusted stays so while the frame is left as it is. -/
theorem Trusted.onward (h : Trusted S side s post w) (hw : w.Before w₁)
    (hi : ∀ side', (w₁.env side').inlining = (w.env side').inlining)
    (hb : (w₁.env side).unrollBound = (w.env side).unrollBound)
    (hp : (w₁.env side).frame.preconds = (w.env side).frame.preconds)
    (hr : (w₁.env side).frame.root = (w.env side).frame.root) : Trusted S side s post w₁ := by
  intro g hg hroot t u c hc
  rw [Env.precond?, hp] at hc
  exact (h g hg (hr ▸ hroot) t u c hc).onward (opened_onward hw hi hb)

/-- A frame is opened in which all that is kept can be made anew. -/
theorem Trusted.opened (h : Trusted S side s post w) (hg : Graph.ofSub s = .ok g) :
    Replaying S side (Walk.opened w side s post g) := by
  intro t u c hc
  rw [Env.precond?, opened_frame] at hc
  dsimp only at hc
  split at hc
  · exact h g hg ‹_› t u c hc
  · rw [Std.HashMap.getElem?_empty] at hc
    cases hc

theorem attached_onward : w.Onward side (attached w side) := by
  refine ⟨World.Same.before (World.same_setEnv rfl), fun side' => ?_, ?_, ?_, ?_⟩
  · by_cases hs : side' = side
    · rw [hs, attached, World.env_setEnv]
    · rw [attached, World.env_setEnv_of_ne _ _ _ hs]
  all_goals rw [attached, World.env_setEnv]

/-- What is trusted stays so while the variables are bound. -/
theorem Trusted.bindVars {a : PUnit} (h : Trusted S side s post w) (hw : w.Under S)
    (hb : Walk.bindVars side s (attached w side) = .ok a w₁) : Trusted S side s post w₁ := by
  have hu : (attached w side).Under S := hw.setEnv rfl rfl
  have hw₁ := (Steady.bindVars (S := S) s).toKeeps.of_ok hu hb
  have hframe : (w₁.env side).frame = (w.env side).frame := by
    rw [← (hw₁.env side).frame, attached, World.env_setEnv]
  exact h.onward (attached_onward.before.trans hw₁.before)
    (fun side' => (hw₁.env side').inlining.trans (attached_onward.inlining side'))
    ((hw₁.env side).unrollBound.trans attached_onward.unrollBound) (by rw [hframe]) (by rw [hframe])

/-- What has been kept for a subroutine and a postcondition can be trusted afterwards. -/
theorem Replaying.trusted (hr : Replaying S side w₁) (hgraph : (w₁.env side).frame.graph = some g)
    (hg : Graph.ofSub s = .ok g) (hpost : (w₁.env side).frame.retPost = some post) :
    Trusted S side s post (closed w side w₁) := by
  intro g' hg' _ t u c hc
  obtain rfl : g = g' := Except.ok.inj (hg.symm.trans hg')
  rw [closed, World.env_setEnv] at hc
  refine (hr t u c hc).onward ⟨?_, fun side' => ?_, ?_, ?_, ?_⟩
  · refine World.Same.before fun side' => ?_
    by_cases hs : side' = side
    · rw [hs, opened, closed, World.env_setEnv, World.env_setEnv]
      rfl
    · rw [opened, closed, World.env_setEnv_of_ne _ _ _ hs, World.env_setEnv_of_ne _ _ _ hs]
  · by_cases hs : side' = side
    · rw [hs, opened, closed, World.env_setEnv, World.env_setEnv]
    · rw [opened, closed, World.env_setEnv_of_ne _ _ _ hs, World.env_setEnv_of_ne _ _ _ hs]
  · rw [opened, closed, World.env_setEnv, World.env_setEnv]
  · rw [opened_frame, hgraph]
  · rw [opened_frame, hpost]

/-- The subroutine is entered by both walks; the second one keeps nothing. -/
theorem enterSub_joined {P : Graph → Copy → Prop}
    (hfills : ∀ g, Graph.ofSub s = .ok g → Fills S side g (P g) (settle side post g.entry []))
    (hset : ∀ g, Graph.ofSub s = .ok g → ∀ w, Retraces S side bound g
      (Shelved S side bound g.entry (g.restrict [] g.entry)) (settle side post g.entry [])
      (fun n => settle' n side post' g.entry []) w)
    (hl : (Twin.same S side bound).Linked z Any w v) (hp : Recast S side bound post post')
    (ht : Trusted S side s post w) (h : enterSub settle side post s w = .ok c w₁) (hz : UpTo z w₁) :
    ∃ d v₁, Eventually (fun n => enterPlain (settle' n) side post' s) v d v₁ ∧
      (Twin.same S side bound).Linked z Any w₁ v₁ ∧ Recast S side bound c d ∧
      Trusted S side s post w₁ := by
  obtain ⟨g, a, w₂, w₃, hg, hb, hrun, rfl⟩ := enterSub_inv h
  have hl₀ : (Twin.same S side bound).Linked z Any (attached w side) (attached v side) :=
    hl.setEnv rfl rfl (hl.inlining side) rfl rfl
  have hw₂ : (attached w side).Kept S.rule (fun _ => Eq) w₂ :=
    (Steady.bindVars s).toKeeps.of_ok hl₀.under hb
  have hu₂ : (opened w₂ side s post g).Under S := (hw₂.under hl₀.under).setEnv rfl rfl
  have hw₃ := (hfills g hg).of_ok hu₂ (by rw [opened_frame]) hrun
  have hz₃ : UpTo z w₃ := hz.of_before (World.Same.before (World.same_setEnv rfl))
  obtain ⟨a', v₂, K₂, ⟨m, hm⟩, hbind⟩ := (Alike.steady hl₀ (.bindVars s)).run _ _ hb
    ((hz₃.of_before hw₃.before).of_before (World.Same.before (World.same_setEnv rfl)))
  have hl₂ := linked_any hbind.linked
  have hj₂ : Joined S side bound g z (opened w₂ side s post g) (plainOpened v₂ side post' g) := by
    refine ⟨⟨hu₂, ?_, by rw [opened_frame]⟩, ?_, ?_, ?_, ?_⟩
    · rw [opened, World.env_setEnv]
      exact hl₂.bound
    · exact hl₂.setEnv rfl rfl (hl₂.inlining side) rfl rfl
    · rw [Twin.same_side, opened_frame]
    · rw [Twin.same_side, plainOpened, World.env_setEnv]
    · rw [Twin.same_side, opened_frame, plainOpened, World.env_setEnv]
      exact .some hp
  obtain ⟨d, v₃, ⟨m', hm'⟩, hj₃, hr₃, hd, -⟩ := (hset g hg _).run hj₂
    ((ht.bindVars hl.under hb).opened hg) hrun hz₃
  refine ⟨d, closed v₂ side v₃, ⟨m', fun n hn => ?_⟩, ?_, hd, hr₃.trusted hj₃.graph hg ?_⟩
  · have hsettle : settle' n side post' g.entry [] (plainOpened v₂ side post' g) = .ok d v₃ := hm' n hn
    refine (enterPlain_of_ok _ _ hg (hm m (Nat.le_refl m))).trans ?_
    rw [plainOpening_eq, hsettle]
  · exact hj₃.linked.setEnv rfl rfl (hj₃.linked.inlining side) rfl rfl
  · rw [(World.Onward.of_kept hw₃).retPost, opened_frame]

/-- Wherever the walk of a subroutine fails, what has been kept can be trusted. -/
theorem enterSub_fails {P : Graph → Copy → Prop} {f : Fault}
    (hfills : ∀ g, Graph.ofSub s = .ok g → Fills S side g (P g) (settle side post g.entry []))
    (hset : ∀ g, Graph.ofSub s = .ok g → ∀ w, Retraces S side bound g
      (Shelved S side bound g.entry (g.restrict [] g.entry)) (settle side post g.entry [])
      (fun n => settle' n side post g.entry []) w)
    (hw : w.Under S) (hbound : (w.env side).unrollBound = bound) (ht : Trusted S side s post w)
    (h : enterSub settle side post s w = .error f w₁) : Trusted S side s post w₁ := by
  rcases enterSub_error hw h with h | ⟨g, a, w₂, w₃, hg, hb, hrun, rfl⟩
  · have hf : (w₁.env side).frame = (w.env side).frame := (h.env side).frame.symm
    exact ht.onward h.before (fun side' => (h.env side').inlining) (h.env side).unrollBound (by rw [hf])
      (by rw [hf])
  have hu₀ : (attached w side).Under S := hw.setEnv rfl rfl
  have hw₂ : (attached w side).Kept S.rule (fun _ => Eq) w₂ :=
    (Steady.bindVars s).toKeeps.of_ok hu₀ hb
  have hbound₂ : (w₂.env side).unrollBound = bound :=
    ((hw₂.env side).unrollBound.trans attached_onward.unrollBound).trans hbound
  have hF₂ : InGraph S side bound g (opened w₂ side s post g) := by
    refine ⟨(hw₂.under hu₀).setEnv rfl rfl, ?_, by rw [opened_frame]⟩
    rw [opened, World.env_setEnv]
    exact hbound₂
  obtain ⟨hF₃, hr₃⟩ := (hset g hg _).fails hF₂ ((ht.bindVars hw hb).opened hg) hrun
  have hw₃ := ending_of_error hrun ▸ (hfills g hg).kept hF₂.under hF₂.graph
  refine hr₃.trusted hF₃.graph hg ?_
  rw [(World.Onward.of_kept hw₃).retPost, opened_frame]

end

/-! ### Levels -/

theorem plainNode_eq {n : Nat} {post : Constr} (hgraph : (w.env side).frame.graph = some g) :
    plainNode (n + 1) side post t u w =
      (plainSurroundings (plainNode n) side g post t (g.restrict u t) >>= fun p =>
        plainBlock (enterPlain (plainNode n)) side g p.1 t (g.restrict u t) p.2) w := by
  rw [plainNode_succ hgraph]
  simp only [plainSurroundings, bind_assoc, pure_bind]

theorem plainNode_restrict {n : Nat} {post : Constr} (hgraph : (w.env side).frame.graph = some g) :
    plainNode n side post t (g.restrict u t) w = plainNode n side post t u w := by
  cases n with
  | zero => rfl
  | succ n => rw [plainNode_eq hgraph, plainNode_eq hgraph, g.restrict_restrict]

/-- With so many levels, copies that are reached are settled as by the walk that keeps nothing. -/
structure Retracing (S : Scope) (side : Side) (bound : Int) (n : Nat) : Prop where
  node {s : Sub} {g : Graph} {post post' : Constr} {t : String} {u : Unroll} {w : World} :
    S.body side s → Graph.ofSub s = .ok g → g.Reached (g.copy u t) →
    Retraces S side bound g (Shelved S side bound t (g.restrict u t)) (settleNode n side post t u)
      (fun m => plainNode m side post' t u) w

namespace Retracing

variable {n : Nat} {s : Sub} {b : Blk} {post post' after : Constr} {targets : Table String Constr}
  (hn : Retracing S side bound n)

include hn

theorem expanded : (Twin.same S side bound).Expanded z (enterSub (settleNode n))
    fun m => enterPlain (plainNode m) where
  expands post c hc := .enterSub fun g hg => ⟨_, settleNode_fills n hc hg post _ _⟩
  run {K w v w₁ post post' c s} hs hl hp hr _ h hz := by
    have hr : (w.env side).frame.root = none := hr
    obtain ⟨d, v₁, hd, hl₁, hcd, -⟩ := enterSub_joined
      (fun g hg => settleNode_fills n hs hg post _ _) (fun g hg w => hn.node hs hg .refl) (linked_any hl)
      (hp.mono fun _ _ => True.intro) (fun g hg hroot => absurd (hr.symm.trans hroot) nofun) h hz
    exact ⟨d, v₁, Any, hd, fun _ _ => True.intro, hl₁, hcd⟩

variable (hs : S.body side s) (hg : Graph.ofSub s = .ok g) (hreach : g.Reached (g.copy u t))

include hs hg hreach

/-- Around a copy both walks come to the same. -/
theorem surroundings (post post' : Constr) : Retraces S side bound g
    (fun _ p q => (Twin.same S side bound).Listed Any p.1 q.1 ∧ Recast S side bound p.2 q.2)
    (Walk.surroundings (settleNode n) side g post t (g.restrict u t))
    (fun m => plainSurroundings (plainNode m) side g post' t (g.restrict u t)) w := by
  refine .surroundings (P := TransGen g.Leads (g.copy u t)) (fun s' hs' w => ?_)
    (fun s' hs' hb w => ?_) (fun s' hs' => ?_) fun s' hs' hb => ?_
  · refine (hn.node hs hg (hreach.trans (.single (Graph.Leads.forward hs')))).imp fun _ _ _ h => ?_
    rwa [g.restrict_restrict] at h
  · exact (hn.node hs hg (hreach.trans (.single (Graph.Leads.back hs' hb)))).imp fun _ _ _ h => h.1
  · exact (settleNode_fills n hs hg post s' _).mono fun c hc => .head' (Graph.Leads.forward hs') hc
  · exact (settleNode_fills n hs hg post s' _).mono fun c hc => .head' (Graph.Leads.back hs' hb) hc

/-- A copy that has not been settled. -/
theorem joined (post' : Constr) (hj : Joined S side bound g z w v) (hr : Replaying S side w)
    (hnew : (w.env side).precond? t (g.restrict u t) = none)
    (hsur : Walk.surroundings (settleNode n) side g post t (g.restrict u t) w = .ok (targets, after) w₁)
    (hb : g.blocks.lookup t = some b)
    (hvisit : visitBlock (enterSub (settleNode n)) side after b
      (placedAt w₁ side g targets t (g.restrict u t)) = .ok c w₂)
    (hz : UpTo z w₂) : ∃ d v₂, Eventually (fun m => plainNode m side post' t u) v d v₂ ∧
      Joined S side bound g z w₂ v₂ ∧ Recast S side bound c d := by
  obtain ⟨hmem, htid⟩ := block_mem hg hb
  subst htid
  have hx : (Twin.same S side bound).Expanded z (enterSub (settleNode n)) fun m => enterPlain (plainNode m) :=
    hn.expanded
  have hnew₁ := surroundings_new hs hg hreach hj.under hj.graph hnew hsur
  have hw₁ := (surroundings_fills n hs hg post b.tid u).of_ok hj.under hj.graph hsur
  have hw₂ := (visitBlock_precond hx.expands hs hmem (hw₁.under hj.under) hnew₁ hvisit).1
  obtain ⟨⟨targets', after'⟩, v₁, ⟨m, hm⟩, hj₁, -, hlist, hafter⟩ :=
    (hn.surroundings hs hg hreach post post').run hj hr hsur (hz.of_before hw₂.before)
  obtain ⟨d, v₂, ⟨m', hm'⟩, hj₂, hd⟩ := visitBlock_joined hx hs hmem hj₁ hnew₁ hlist hafter hvisit hz
  refine ⟨d, v₂, ⟨max m m' + 1, fun k hk => ?_⟩, hj₂, hd⟩
  obtain ⟨k, rfl⟩ := Nat.exists_eq_add_of_le' hk
  have hm₀ := hm (k + max m m') (by omega)
  have hm₁ := hm' (k + max m m') (by omega)
  have hgraph : (v.env side).frame.graph = some g := hj.opened.graph'
  show plainNode (k + max m m' + 1) side post' b.tid u v = _
  rw [plainNode_eq hgraph, bind_of_ok hm₀, plainBlock, hb]
  exact hm₁

/-- The precondition of a copy that has been settled can be made anew. -/
theorem replaying (hS : ¬ S.draws) (hF : InGraph S side bound g w) (hr : Replaying S side w)
    (hnew : (w.env side).precond? t (g.restrict u t) = none)
    (hsur : Walk.surroundings (settleNode n) side g post t (g.restrict u t) w = .ok (targets, after) w₁)
    (hb : g.blocks.lookup t = some b)
    (hvisit : visitBlock (enterSub (settleNode n)) side after b
      (placedAt w₁ side g targets t (g.restrict u t)) = .ok c w₂) :
    Replaying S side w₂ ∧ (w₂.env side).precond? t (g.restrict u t) = some c := by
  obtain ⟨hmem, htid⟩ := block_mem hg hb
  have hx : Keeps.Expands S side (enterSub (settleNode n)) := (hn.expanded (z := none)).expands
  have hnew₁ := surroundings_new hs hg hreach hF.under hF.graph hnew hsur
  obtain ⟨p, v₁, -, hj₁, hr₁, -⟩ :=
    (hn.surroundings hs hg hreach post post).run hF.joined hr hsur True.intro
  have hw₁ : w.Onward side w₁ :=
    .of_kept ((surroundings_fills n hs hg post t u).of_ok hF.under hF.graph hsur)
  obtain ⟨hw₂, hprecond⟩ := visitBlock_precond hx hs hmem hj₁.under (htid ▸ hnew₁) hvisit
  have hw₂ : w₁.Onward side w₂ := .of_kept hw₂
  refine ⟨fun t' u' c' hc' => ?_, by rw [hprecond, htid, if_pos rfl]⟩
  rw [hprecond] at hc'
  split at hc'
  · rename_i hkey
    cases hkey
    cases hc'
    intro v post' hv
    have hj := hF.rejoined hS (.of_onward (hw₁.trans hw₂) hv)
    obtain ⟨d, v₂, ⟨m, hm⟩, hj₂, hd⟩ :=
      hn.joined hs hg hreach post' hj hr hnew hsur hb hvisit hv.before
    have hgraph : (v.env side).frame.graph = some g := hj.opened.graph'
    refine ⟨d, v₂, ⟨m, fun k hk => ?_⟩, hd.rel, hj₂.linked.tied.2, hj₂.rejoins⟩
    rw [htid]
    exact (plainNode_restrict hgraph).trans (hm k hk)
  · exact (hr₁ t' u' c' hc').onward hw₂

end Retracing

/-- The walk that keeps nothing retraces the one that settles copies of blocks. -/
theorem settleNode_retraces (hS : ¬ S.draws) (n : Nat) : Retracing S side bound n := by
  induction n with
  | zero => exact ⟨fun _ _ _ => .throw _⟩
  | succ n ih =>
  refine ⟨fun {s g post post' t u w} hs hg hreach => ⟨fun {z v c w₂} hj hr h hz => ?_,
    fun {f w₂} hF hr h => ?_⟩⟩
  · rcases settleNode_split hj.graph h with ⟨hkept, rfl⟩ | ⟨hnew, targets, after, w₁, b, hsur, hb, hvisit⟩
    · obtain ⟨d, v₁, ⟨m, hm⟩, hplain, hsame, hv₁⟩ := hr _ _ _ hkept v post' hj.rejoins
      have hgraph : (v.env side).frame.graph = some g := hj.opened.graph'
      exact ⟨d, v₁, ⟨m, fun k hk => (plainNode_restrict hgraph).symm.trans (hm k hk)⟩, hj.back hsame hv₁, hr,
        ⟨True.intro, hplain⟩, hkept⟩
    · obtain ⟨d, v₂, hd, hj₂, hcd⟩ := ih.joined hs hg hreach post' hj hr hnew hsur hb hvisit hz
      obtain ⟨hr₂, hkept⟩ := ih.replaying hs hg hreach hS hj.toInGraph hr hnew hsur hb hvisit
      exact ⟨d, v₂, hd, hj₂, hr₂, hcd, hkept⟩
  · obtain ⟨hnew, h⟩ := settleNode_failed hF.graph h
    have hsurroundings := ih.surroundings (w := w) hs hg hreach post post
    rcases h with hsur | ⟨targets, after, w₁, hsur, h⟩
    · exact hsurroundings.fails hF hr hsur
    obtain ⟨p, v₁, -, hj₁, hr₁, -⟩ := hsurroundings.run hF.joined hr hsur True.intro
    rcases h with rfl | ⟨b, hb, hvisit⟩
    · exact ⟨hj₁.toInGraph, hr₁⟩
    obtain ⟨hmem, htid⟩ := block_mem hg hb
    have hnew₁ := surroundings_new hs hg hreach hF.under hF.graph hnew hsur
    have hx : Keeps.Expands S side (enterSub (settleNode n)) := (ih.expanded (z := none)).expands
    obtain ⟨hw₂, hprecond⟩ := visitBlock_fails (P := fun _ => True) hx hs hmem hj₁.under (htid ▸ hnew₁) hvisit
    exact ⟨hj₁.toInGraph.onward hw₂ (graph_of_kept hw₂),
      fun t' u' c' hc' => (hr₁ t' u' c' (hprecond t' u' ▸ hc')).onward (.of_kept hw₂)⟩

section

variable {s : Sub} {post post' : Constr}

/-- The walk of a subroutine comes to the same where nothing is kept. -/
theorem visitSub_joined (hS : ¬ S.draws) (hs : S.body side s)
    (hl : (Twin.same S side (w.env side).unrollBound).Linked none Any w v)
    (hp : post'.plain = post.plain) (ht : Trusted S side s post w)
    (h : visitSub side post s w = .ok c w₁) : ∃ d v₁,
      Eventually (fun n => enterPlain (plainNode n) side post' s) v d v₁ ∧ d.plain = c.plain ∧
      Trusted S side s post w₁ := by
  have hset : Retracing S side (w.env side).unrollBound (depthBound (w.env side) s) :=
    settleNode_retraces hS _
  obtain ⟨d, v₁, hd, -, hcd, ht₁⟩ := enterSub_joined (fun g hg => settleNode_fills _ hs hg post _ _)
    (fun g hg w => hset.node hs hg .refl) hl ⟨True.intro, hp⟩ ht h True.intro
  exact ⟨d, v₁, hd, hcd.rel, ht₁⟩

/-- However the walk of a subroutine ends, what has been kept can be trusted. -/
theorem visitSub_trusted (hS : ¬ S.draws) (hs : S.body side s) (hw : w.Under S)
    (ht : Trusted S side s post w) : Trusted S side s post (ending (visitSub side post s) w) := by
  cases h : visitSub side post s w with
  | ok c w₁ =>
    obtain ⟨-, -, -, -, ht₁⟩ := visitSub_joined hS hs (linked_self hw rfl) rfl ht h
    rwa [ending_of_ok h]
  | error f w₁ =>
    have h' : enterSub (settleNode (depthBound (w.env side) s)) side post s w = .error f w₁ := h
    rw [ending_of_error h]
    have hset : Retracing S side (w.env side).unrollBound (depthBound (w.env side) s) :=
      settleNode_retraces hS _
    exact enterSub_fails (fun g hg => settleNode_fills _ hs hg post _ _)
      (fun g hg w => hset.node hs hg .refl) hw rfl ht h'

end

end Walk

end Precond

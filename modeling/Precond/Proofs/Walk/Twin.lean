import Precond.Proofs.Constraint.Formula
import Precond.Proofs.Walk.Keeps

/-! Two walks side by side. What they start from is related, and all that makes new constraints keeps
constraints related (`Twin`). If the first walk succeeds, so does the second, in a world with the same
tables or in a later one (`Walk.Alike`). -/

namespace Precond

open IR Precond.Flow

/-- A new goal and one that asks for the same. -/
inductive Copied (low : Nat) : Constr → Constr → Prop
  | goal : low ≤ i → Copied low (.goal i name value tid) (.goal j name value tid)

/-- A relation between the constraints of two walks on one side of worlds, one with the unroll bound
`bound` and one with `bound'`. The numbers of new constraints of the first walk are at least `low`;
`constants` tells whether variables and flags stand for constants, and `numbered` whether different
constraints of the first walk have different numbers. -/
structure Twin where
  scope : Scope
  side : Side
  constants : Prop
  numbered : Prop
  low : Nat
  bound : Int
  bound' : Int
  rel : Constr → Constr → Prop
  goal : low ≤ i → rel (.goal i name value tid) (.goal j name value tid)
  clause : low ≤ i → List.Forall₂ (Copied low) hyps hyps' → List.Forall₂ rel goals goals' →
    rel (.clause i hyps goals) (.clause j hyps' goals')
  branch : low ≤ i → rel yes yes' → rel no no' →
    rel (.branch i jump p yes no) (.branch j jump p yes' no')
  subst : low ≤ i → rel c c' → (constants → ∀ p ∈ pairs, p.1.IsConst) →
    rel (.subst i c pairs) (.subst j c' pairs)

namespace Twin

variable (T : Twin)

/-- A constraint of the first walk, one of the nodes `K`, with the constraint of the second. -/
structure Held (K : Constr → Prop) (c c' : Constr) : Prop where
  node : K c
  rel : T.rel c c'

variable {T} {K K₁ : Constr → Prop}

theorem Held.mono {c c' : Constr} (h : T.Held K c c') (hK : ∀ c, K c → K₁ c) : T.Held K₁ c c' :=
  ⟨hK _ h.node, h.rel⟩

theorem Held.option {o o' : Option Constr} (h : Option.Rel (T.Held K) o o')
    (hK : ∀ c, K c → K₁ c) : Option.Rel (T.Held K₁) o o' := by
  cases h with
  | some h => exact .some (h.mono hK)
  | none => exact .none

theorem Held.getD {o o' : Option Constr} {c c' : Constr} (h : Option.Rel (T.Held K) o o')
    (hc : T.Held K c c') : T.Held K (o.getD c) (o'.getD c') := by
  cases h with
  | some h => exact h
  | none => exact hc

theorem Held.nodes {cs cs' : List Constr} (h : List.Forall₂ (T.Held K) cs cs') : ∀ c ∈ cs, K c := by
  induction h with
  | nil => exact nofun
  | cons hc _ ih =>
    intro d hd
    rcases List.mem_cons.mp hd with rfl | hd
    · exact hc.node
    · exact ih d hd

theorem Held.of_copy {c c' : Constr} (hc : K c) (h : Copied T.low c c') : T.Held K c c' := by
  cases h with
  | goal hi => exact ⟨hc, T.goal hi⟩

theorem Held.of_copied {cs cs' : List Constr} (hK : ∀ c ∈ cs, K c)
    (h : List.Forall₂ (Copied T.low) cs cs') : List.Forall₂ (T.Held K) cs cs' := by
  induction h with
  | nil => exact .nil
  | cons hc _ ih =>
    exact .cons (.of_copy (hK _ List.mem_cons_self) hc) (ih fun c hc => hK c (List.mem_cons_of_mem _ hc))

end Twin

/-! ### New constraints -/

namespace Walk

variable {T : Twin} {K : Constr → Prop}

/-- Two actions that only make constraints: if the first one succeeds, so does the second, with a
related result. -/
structure Makes (T : Twin) (A : (Constr → Prop) → α → β → Prop) (x : Walk α) (x' : Walk β)
    (K : Constr → Prop) : Prop where
  run (w v : World) (a : α) (w₁ : World) : (T.numbered → Constr.Register K w.nodes) →
    T.low ≤ w.nodes → x w = .ok a w₁ → ∃ n b n' K₁, w₁ = { w with nodes := n } ∧ w.nodes ≤ n ∧
      x' v = .ok b { v with nodes := n' } ∧ (∀ c, K c → K₁ c) ∧
      (T.numbered → Constr.Register K₁ n) ∧ A K₁ a b

namespace Makes

variable {A : (Constr → Prop) → α → β → Prop} {B : (Constr → Prop) → γ → δ → Prop}

theorem pure {a : α} {b : β} (h : A K a b) : Makes T A (Pure.pure a) (Pure.pure b) K := by
  refine ⟨fun w v a' w₁ hK _ ha => ?_⟩
  cases ha
  exact ⟨_, b, _, K, rfl, Nat.le_refl _, rfl, fun _ hc => hc, hK, h⟩

theorem throw (f : Fault) {x' : Walk β} : Makes T A (MonadExcept.throw f) x' K :=
  ⟨fun _ _ _ _ _ _ ha => nomatch ha⟩

theorem bind {x : Walk α} {x' : Walk β} {k : α → Walk γ} {k' : β → Walk δ} (hx : Makes T A x x' K)
    (hk : ∀ K₁ a b, (∀ c, K c → K₁ c) → A K₁ a b → Makes T B (k a) (k' b) K₁) :
    Makes T B (x >>= k) (x' >>= k') K := by
  refine ⟨fun w v c w₂ hK hlow hc => ?_⟩
  obtain ⟨a, w₁, ha, h₁⟩ := bind_ok hc
  obtain ⟨n, b, n', K₁, rfl, hn, hb, hK₁, hreg, hA⟩ := hx.run w v a w₁ hK hlow ha
  obtain ⟨m, d, m', K₂, rfl, hm, hd, hK₂, hreg₂, hB⟩ :=
    (hk K₁ a b hK₁ hA).run _ { v with nodes := n' } _ _ hreg (hlow.trans hn) h₁
  exact ⟨m, d, m', K₂, rfl, hn.trans hm, (bind_of_ok hb).trans hd, fun c hc => hK₂ c (hK₁ c hc), hreg₂,
    hB⟩

theorem ite {p : Prop} [Decidable p] {x y : Walk α} {x' y' : Walk β} (hx : Makes T A x x' K)
    (hy : Makes T A y y' K) : Makes T A (if p then x else y) (if p then x' else y') K := by
  split
  · exact hx
  · exact hy

/-- A new node with parts among the nodes. -/
theorem node {f f' : Nat → Constr} (hid : ∀ i, (f i).id = i)
    (hchildren : ∀ i, ∀ d ∈ (f i).children, K d) (hrel : ∀ i j, T.low ≤ i → T.rel (f i) (f' j)) :
    Makes T T.Held (do return f (← newNode)) (do return f' (← newNode)) K := by
  refine ⟨fun w v a w₁ hK hlow ha => ?_⟩
  cases ha
  exact ⟨_, _, _, _, rfl, Nat.le_succ _, rfl, fun _ hc => .inl hc,
    fun hn => (hK hn).add (hid _) (hchildren _), .inr rfl, hrel _ _ hlow⟩

theorem mkGoal (name : String) (value : Term .bool) (tid : Option String) :
    Makes T T.Held (Walk.mkGoal name value tid) (Walk.mkGoal name value tid) K :=
  node (fun _ => rfl) (fun _ _ hd => (List.not_mem_nil hd).elim) fun _ _ => T.goal

/-- A new goal may be a hypothesis. -/
theorem mkHyp (name : String) (value : Term .bool) (tid : Option String) :
    Makes T (fun K c c' => K c ∧ Copied T.low c c') (Walk.mkGoal name value tid)
      (Walk.mkGoal name value tid) K := by
  refine ⟨fun w v a w₁ hK hlow ha => ?_⟩
  cases ha
  exact ⟨_, _, _, _, rfl, Nat.le_succ _, rfl, fun _ hc => .inl hc,
    fun hn => (hK hn).add rfl fun _ hd => (List.not_mem_nil hd).elim, .inr rfl, .goal hlow⟩

theorem mkClause {hyps hyps' goals goals' : List Constr} (hh : ∀ c ∈ hyps, K c)
    (hh' : List.Forall₂ (Copied T.low) hyps hyps') (hg : List.Forall₂ (T.Held K) goals goals') :
    Makes T T.Held (Walk.mkClause hyps goals) (Walk.mkClause hyps' goals') K := by
  refine node (fun _ => rfl) (fun _ d hd => ?_) fun _ _ hi => T.clause hi hh' (hg.imp fun _ _ h => h.rel)
  rcases List.mem_append.mp hd with hd | hd
  · exact hh d hd
  · exact Twin.Held.nodes hg d hd

theorem mkBranch (jump : String) (cond : Term .bool) {yes yes' no no' : Constr}
    (hy : T.Held K yes yes') (hn : T.Held K no no') :
    Makes T T.Held (Walk.mkBranch jump cond yes no) (Walk.mkBranch jump cond yes' no') K := by
  refine node (fun _ => rfl) (fun _ d hd => ?_) fun _ _ hi => T.branch hi hy.rel hn.rel
  rcases List.mem_cons.mp hd with rfl | hd
  · exact hy.node
  · cases List.mem_singleton.mp hd
    exact hn.node

theorem substitute {c c' : Constr} (h : T.Held K c c') {olds : List SomeTerm}
    (hold : T.constants → ∀ t ∈ olds, t.IsConst) (news : List SomeTerm) :
    Makes T T.Held (Walk.substitute c olds news) (Walk.substitute c' olds news) K := by
  refine ite (pure h) (ite (throw _) (node (fun _ => rfl) (fun _ d hd => ?_) fun _ _ hi => ?_))
  · cases List.mem_singleton.mp hd
    exact h.node
  · exact T.subst hi h.rel fun hC p hp => hold hC p.1 (List.of_mem_zip hp).1

theorem replaceAll {c c' : Constr} (h : T.Held K c c') {pairs : List (SomeTerm × SomeTerm)}
    (hold : T.constants → ∀ p ∈ pairs, p.1.IsConst) :
    Makes T T.Held (Walk.replaceAll c pairs) (Walk.replaceAll c' pairs) K := by
  refine substitute h (fun hC t ht => ?_) _
  obtain ⟨p, hp, rfl⟩ := List.mem_map.mp ht
  exact hold hC p hp

/-- New goals for a list, one after the other. -/
theorem mapM_hyps {f : γ → Walk Constr}
    (h : ∀ K x, Makes T (fun K c c' => K c ∧ Copied T.low c c') (f x) (f x) K) (xs : List γ) :
    Makes T (fun K cs cs' => (∀ c ∈ cs, K c) ∧ List.Forall₂ (Copied T.low) cs cs') (xs.mapM f)
      (xs.mapM f) K := by
  induction xs generalizing K with
  | nil => exact pure ⟨nofun, .nil⟩
  | cons x xs ih =>
    rw [List.mapM_cons]
    refine (h K x).bind fun K₁ c c' _ hc => ih.bind fun K₂ cs cs' hK₂ hcs => pure ⟨?_, ?_⟩
    · intro d hd
      rcases List.mem_cons.mp hd with rfl | hd
      · exact hK₂ _ hc.1
      · exact hcs.1 d hd
    · exact .cons hc.2 hcs.2

theorem formula (text : String) (decls : Smt.Decls) :
    Makes T (fun K c c' => K c ∧ Copied T.low c c') (Walk.formula text decls)
      (Walk.formula text decls) K := by
  unfold Walk.formula
  split
  · exact throw _
  · exact mkHyp ..
  · exact mkHyp ..

theorem guard {post post' : Constr} (h : T.Held K post post') (assumes verifies : List Hook) :
    Makes T T.Held (Walk.guard assumes verifies post) (Walk.guard assumes verifies post') K := by
  refine ite (pure h) ?_
  refine (mapM_hyps (fun _ _ => mkHyp ..) assumes).bind fun K₁ hyps hyps' hK₁ hh => ?_
  refine (mapM_hyps (fun _ _ => mkHyp ..) verifies).bind fun K₂ goals goals' hK₂ hg => ?_
  refine mkClause (fun c hc => hK₂ c (hh.1 c hc)) hh.2 (List.rel_append ?_ ?_)
  · exact Twin.Held.of_copied hg.1 hg.2
  · exact .cons (h.mono fun c hc => hK₂ c (hK₁ c hc)) .nil

end Makes

/-! ### Two walks -/

end Walk

/-- The worlds of two walks. The tables are the same, or the second walk is in a world that is later
than the first walk will be. -/
structure Twin.Linked (T : Twin) (z : Option World) (K : Constr → Prop) (w v : World) : Prop where
  under : w.Under T.scope
  under' : v.Under T.scope
  settled : T.scope.draws → z = none
  tied : Walk.Tied z w v
  inlining (side : Side) : (v.env side).inlining = (w.env side).inlining
  register : T.numbered → Constr.Register K w.nodes
  low : T.low ≤ w.nodes
  constant : T.constants → w.Constant
  bound : (w.env T.side).unrollBound = T.bound
  bound' : (v.env T.side).unrollBound = T.bound'

/-- What the elements of a block find in the frames of two walks. -/
structure Twin.Placed (T : Twin) (K : Constr → Prop) (w v : World) : Prop where
  retPost : Option.Rel (T.Held K) (w.env T.side).frame.retPost (v.env T.side).frame.retPost
  target (t : String) : Option.Rel (T.Held K) ((w.env T.side).frame.targets.lookup t)
    ((v.env T.side).frame.targets.lookup t)
  pred : (v.env T.side).frame.pred = (w.env T.side).frame.pred

/-- What two walks have come to, with the results `a` and `b`. -/
structure Twin.Step (T : Twin) (z : Option World) (A : (Constr → Prop) → α → β → Prop)
    (K : Constr → Prop) (w v : World) (a : α) (w₁ : World) (b : β) (v₁ : World)
    (K₁ : Constr → Prop) : Prop where
  grows : ∀ c, K c → K₁ c
  linked : T.Linked z K₁ w₁ v₁
  frame : (w₁.env T.side).frame = (w.env T.side).frame
  frame' : (v₁.env T.side).frame = (v.env T.side).frame
  result : A K₁ a b

namespace Twin

variable {T : Twin} {z : Option World} {K K₁ : Constr → Prop} {w v w₁ v₁ : World}
  {F F' : Side → Frame → Frame → Prop}

/-- Both walks go on, and the tables are still the same. -/
theorem Linked.kept (hl : T.Linked z K w v) (hw : w.Kept T.scope.rule F w₁)
    (hv : v.Kept T.scope.rule F' v₁) (ht : Walk.Tied z w₁ v₁) : T.Linked z K w₁ v₁ where
  under := hw.under hl.under
  under' := hv.under hl.under'
  settled := hl.settled
  tied := ht
  inlining side := ((hv.env side).inlining.trans (hl.inlining side)).trans (hw.env side).inlining.symm
  register hn := (hl.register hn).mono hw.nodes
  low := hl.low.trans hw.nodes
  constant hC := hw.constant (hl.constant hC)
  bound := (hw.env T.side).unrollBound.trans hl.bound
  bound' := (hv.env T.side).unrollBound.trans hl.bound'

theorem Linked.nodes (hl : T.Linked z K w v) {n n' : Nat} (hn : w.nodes ≤ n)
    (hK : T.numbered → Constr.Register K₁ n) :
    T.Linked z K₁ { w with nodes := n } { v with nodes := n' } := by
  have henv {u : World} {m : Nat} (side : Side) : World.env { u with nodes := m } side = u.env side := by
    cases side <;> rfl
  exact {
    under := hl.under.congr henv
    under' := hl.under'.congr henv
    settled := hl.settled
    tied := hl.tied.congr henv henv
    inlining := fun side => by rw [henv, henv]; exact hl.inlining side
    register := hK
    low := hl.low.trans hn
    constant := fun hC side => by rw [henv]; exact hl.constant hC side
    bound := by rw [henv]; exact hl.bound
    bound' := by rw [henv]; exact hl.bound' }

/-- The walks are at other places, with the same tables. -/
theorem Linked.moved (hl : T.Linked z K w v) (hw : w.Same w₁) (hv : v.Same v₁)
    (hn : w₁.nodes = w.nodes)
    (hi : ∀ side, (v₁.env side).inlining = (w₁.env side).inlining)
    (hb : (w₁.env T.side).unrollBound = (w.env T.side).unrollBound)
    (hb' : (v₁.env T.side).unrollBound = (v.env T.side).unrollBound) : T.Linked z K w₁ v₁ where
  under := hl.under.same hw
  under' := hl.under'.same hv
  settled := hl.settled
  tied := hl.tied.moved hw hv
  inlining := hi
  register hN := hn ▸ hl.register hN
  low := hn ▸ hl.low
  constant hC := (hl.constant hC).same hw
  bound := hb.trans hl.bound
  bound' := hb'.trans hl.bound'

theorem Linked.setEnv (hl : T.Linked z K w v) {e e' : Env} (he : e.core = (w.env T.side).core)
    (he' : e'.core = (v.env T.side).core) (hi : e'.inlining = e.inlining)
    (hb : e.unrollBound = (w.env T.side).unrollBound)
    (hb' : e'.unrollBound = (v.env T.side).unrollBound) :
    T.Linked z K (w.setEnv T.side e) (v.setEnv T.side e') := by
  refine hl.moved (World.same_setEnv he) (World.same_setEnv he') (World.nodes_setEnv ..) (fun side => ?_)
    ?_ ?_
  · by_cases hs : side = T.side
    · rw [hs, World.env_setEnv, World.env_setEnv, hi]
    · rw [World.env_setEnv_of_ne _ _ _ hs, World.env_setEnv_of_ne _ _ _ hs, hl.inlining]
  · rw [World.env_setEnv, hb]
  · rw [World.env_setEnv, hb']

theorem Placed.step {A : (Constr → Prop) → α → β → Prop} {a : α} {b : β} (hp : T.Placed K w v)
    (h : T.Step z A K w v a w₁ b v₁ K₁) : T.Placed K₁ w₁ v₁ where
  retPost := by
    rw [h.frame, h.frame']
    exact Held.option hp.retPost h.grows
  target t := by
    rw [h.frame, h.frame']
    exact Held.option (hp.target t) h.grows
  pred := by
    rw [h.frame, h.frame']
    exact hp.pred

end Twin

namespace Walk

variable {T : Twin} {z : Option World} {K K₁ : Constr → Prop} {w v w₁ v₁ : World}
  {A : (Constr → Prop) → α → β → Prop} {B : (Constr → Prop) → γ → δ → Prop}

/-- Whatever number of steps an action is given, if it is large enough. -/
def Eventually (x : Nat → Walk α) (v : World) (a : α) (v₁ : World) : Prop :=
  ∃ m, ∀ n, m ≤ n → x n v = .ok a v₁

theorem Eventually.of_ok {x : Walk α} {a : α} (h : x v = .ok a v₁) :
    Eventually (fun _ => x) v a v₁ := ⟨0, fun _ _ => h⟩

theorem Eventually.bind {x : Nat → Walk α} {k : Nat → α → Walk β} {a : α} {b : β} {v₂ : World}
    (hx : Eventually x v a v₁) (hk : Eventually (fun n => k n a) v₁ b v₂) :
    Eventually (fun n => x n >>= k n) v b v₂ := by
  obtain ⟨m, hm⟩ := hx
  obtain ⟨m', hm'⟩ := hk
  exact ⟨max m m', fun n hn => (bind_of_ok (hm n (le_of_max_le_left hn))).trans
    (hm' n (le_of_max_le_right hn))⟩

/-- If the first action succeeds before the later world, the second one does too, when it is given
enough steps; both stay where they are. -/
structure Alike (T : Twin) (z : Option World) (A : (Constr → Prop) → α → β → Prop) (x : Walk α)
    (x' : Nat → Walk β) (K : Constr → Prop) (w v : World) : Prop where
  run (a : α) (w₁ : World) : x w = .ok a w₁ → UpTo z w₁ →
    ∃ b v₁ K₁, Eventually x' v b v₁ ∧ T.Step z A K w v a w₁ b v₁ K₁

namespace Alike

theorem pure {a : α} {b : β} (hl : T.Linked z K w v) (h : A K a b) :
    Alike T z A (Pure.pure a) (fun _ => Pure.pure b) K w v := by
  refine ⟨fun a' w₁ ha _ => ?_⟩
  cases ha
  exact ⟨b, v, K, .of_ok rfl, fun _ hc => hc, hl, rfl, rfl, h⟩

theorem throw (f : Fault) {x' : Nat → Walk β} : Alike T z A (MonadExcept.throw f) x' K w v :=
  ⟨fun _ _ ha => nomatch ha⟩

theorem bind {x : Walk α} {x' : Nat → Walk β} {k : α → Walk γ} {k' : Nat → β → Walk δ}
    {F : Side → Frame → Frame → Prop} (hx : Alike T z A x x' K w v) (hl : T.Linked z K w v)
    (hxk : Keeps T.scope F x) (hkeep : ∀ a, Keeps T.scope F (k a))
    (hk : ∀ a w₁ b v₁ K₁, x w = .ok a w₁ → T.Step z A K w v a w₁ b v₁ K₁ →
      Alike T z B (k a) (fun n => k' n b) K₁ w₁ v₁) :
    Alike T z B (x >>= k) (fun n => x' n >>= k' n) K w v := by
  refine ⟨fun c w₂ hc hwithin => ?_⟩
  obtain ⟨a, w₁, ha, h₁⟩ := bind_ok hc
  have hw₁ := (hxk.of_ok hl.under ha).under hl.under
  obtain ⟨b, v₁, K₁, hb, hstep⟩ := hx.run a w₁ ha
    (hwithin.of_before ((hkeep a).of_ok hw₁ h₁).before)
  obtain ⟨d, v₂, K₂, hd, hstep₂⟩ := (hk a w₁ b v₁ K₁ ha hstep).run c w₂ h₁ hwithin
  exact ⟨d, v₂, K₂, hb.bind hd, fun c hc => hstep₂.grows c (hstep.grows c hc), hstep₂.linked,
    hstep₂.frame.trans hstep.frame, hstep₂.frame'.trans hstep.frame', hstep₂.result⟩

/-- Where the tables are the same all the time. -/
theorem seq {x : Walk α} {x' : Nat → Walk β} {k : α → Walk γ} {k' : Nat → β → Walk δ}
    (hx : Alike T none A x x' K w v)
    (hk : ∀ a w₁ b v₁ K₁, x w = .ok a w₁ → T.Step none A K w v a w₁ b v₁ K₁ →
      Alike T none B (k a) (fun n => k' n b) K₁ w₁ v₁) :
    Alike T none B (x >>= k) (fun n => x' n >>= k' n) K w v := by
  refine ⟨fun c w₂ hc hwithin => ?_⟩
  obtain ⟨a, w₁, ha, h₁⟩ := bind_ok hc
  obtain ⟨b, v₁, K₁, hb, hstep⟩ := hx.run a w₁ ha True.intro
  obtain ⟨d, v₂, K₂, hd, hstep₂⟩ := (hk a w₁ b v₁ K₁ ha hstep).run c w₂ h₁ hwithin
  exact ⟨d, v₂, K₂, hb.bind hd, fun c hc => hstep₂.grows c (hstep.grows c hc), hstep₂.linked,
    hstep₂.frame.trans hstep.frame, hstep₂.frame'.trans hstep.frame', hstep₂.result⟩

theorem ite {p : Prop} [Decidable p] {x y : Walk α} {x' y' : Nat → Walk β}
    (hx : Alike T z A x x' K w v) (hy : Alike T z A y y' K w v) :
    Alike T z A (if p then x else y) (fun n => if p then x' n else y' n) K w v := by
  split
  · exact hx
  · exact hy

/-- What gives the same again. -/
theorem steady {x : Walk α} (hl : T.Linked z K w v) (hx : Steady T.scope x) :
    Alike T z (fun _ a b => b = a) x (fun _ => x) K w v := by
  refine ⟨fun a w₁ ha hwithin => ?_⟩
  obtain ⟨v₁, hv, ht⟩ := hx.again hl.settled hl.under hl.tied ha hwithin
  have hw₁ := hx.toKeeps.of_ok hl.under ha
  have hv₁ := hx.toKeeps.of_ok hl.under' hv
  exact ⟨a, v₁, K, .of_ok hv, fun _ hc => hc, hl.kept hw₁ hv₁ ht, (hw₁.env T.side).frame.symm,
    (hv₁.env T.side).frame.symm, rfl⟩

/-- What only makes constraints. -/
theorem makes {x : Walk α} {x' : Walk β} (hl : T.Linked z K w v) (hx : Makes T A x x' K) :
    Alike T z A x (fun _ => x') K w v := by
  refine ⟨fun a w₁ ha _ => ?_⟩
  obtain ⟨n, b, n', K₁, rfl, hn, hb, hK₁, hreg, hA⟩ := hx.run w v a w₁ hl.register hl.low ha
  refine ⟨b, _, K₁, .of_ok hb, hK₁, hl.nodes hn hreg, ?_, ?_, hA⟩ <;> cases T.side <;> rfl

/-- What gives the same again, and then more. -/
theorem after_of {x : Walk α} {k : α → Walk γ} {k' : Nat → α → Walk δ}
    (hl : T.Linked z K w v) (hx : Steady T.scope x)
    (hkeep : ∀ a w₁, x w = .ok a w₁ → Keeps.Rests T.scope (k a))
    (hk : ∀ a w₁ v₁, x w = .ok a w₁ → T.Step z (fun _ _ _ => True) K w v a w₁ a v₁ K →
      Alike T z B (k a) (fun n => k' n a) K w₁ v₁) :
    Alike T z B (x >>= k) (fun n => x >>= k' n) K w v := by
  refine ⟨fun c w₂ hc hwithin => ?_⟩
  obtain ⟨a, w₁, ha, h₁⟩ := bind_ok hc
  have hw₁ := hx.toKeeps.of_ok hl.under ha
  obtain ⟨v₁, hv, ht⟩ := hx.again hl.settled hl.under hl.tied ha
    (hwithin.of_before ((hkeep a w₁ ha).of_ok (hw₁.under hl.under) h₁).before)
  have hv₁ := hx.toKeeps.of_ok hl.under' hv
  have hstep : T.Step z (fun _ _ _ => True) K w v a w₁ a v₁ K := ⟨fun _ hc => hc,
    hl.kept hw₁ hv₁ ht, (hw₁.env T.side).frame.symm, (hv₁.env T.side).frame.symm, True.intro⟩
  obtain ⟨d, v₂, K₂, hd, hstep₂⟩ := (hk a w₁ v₁ ha hstep).run c w₂ h₁ hwithin
  exact ⟨d, v₂, K₂, (Eventually.of_ok hv).bind hd, hstep₂.grows, hstep₂.linked,
    hstep₂.frame.trans hstep.frame, hstep₂.frame'.trans hstep.frame', hstep₂.result⟩

theorem after {x : Walk α} {k : α → Walk γ} {k' : Nat → α → Walk δ}
    (hl : T.Linked z K w v) (hx : Steady T.scope x) (hkeep : ∀ a, Keeps.Rests T.scope (k a))
    (hk : ∀ a w₁ v₁, x w = .ok a w₁ → T.Step z (fun _ _ _ => True) K w v a w₁ a v₁ K →
      Alike T z B (k a) (fun n => k' n a) K w₁ v₁) :
    Alike T z B (x >>= k) (fun n => x >>= k' n) K w v := after_of hl hx (fun a _ _ => hkeep a) hk

/-- What is read of the environments. -/
theorem env {k : Env → Walk α} {k' : Nat → Env → Walk β}
    (h : Alike T z A (k (w.env side)) (fun n => k' n (v.env side)) K w v) :
    Alike T z A (Walk.env side >>= k) (fun n => Walk.env side >>= k' n) K w v :=
  ⟨fun a w₁ ha hwithin => h.run a w₁ ha hwithin⟩

/-- What is read of the environments are policies. -/
theorem policy {k : Env → Walk α} {k' : Nat → Env → Walk β} (hl : T.Linked z K w v)
    (h : Alike T z A (k (T.scope.policy side)) (fun n => k' n (T.scope.policy side)) K w v)
    (hk : ∀ e : Env, k e = k e.policy) (hk' : ∀ n, ∀ e : Env, k' n e = k' n e.policy) :
    Alike T z A (Walk.env side >>= k) (fun n => Walk.env side >>= k' n) K w v := by
  refine env ?_
  simp only [hk (w.env side), hk' _ (v.env side), hl.under.policy, hl.under'.policy]
  exact h

theorem lift {x : Except Fault α} {k : α → Walk γ} {k' : Nat → α → Walk δ}
    (h : ∀ a, x = .ok a → Alike T z B (k a) (fun n => k' n a) K w v) :
    Alike T z B ((liftM x : Walk α) >>= k) (fun n => (liftM x : Walk α) >>= k' n) K w v := by
  cases x with
  | ok a => exact h a rfl
  | error f => exact ⟨fun _ _ ha => nomatch ha⟩

end Alike

end Walk

end Precond

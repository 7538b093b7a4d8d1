import Precond.Proofs.Exact.Unrolling
import Precond.Proofs.Walk.Around
import Precond.Proofs.Walk.Record
import Precond.Proofs.Walk.Stack

/-! Each copy of a block is settled once. The copies that have a precondition are those whose elements
have been gone through, at every point of a walk (`Walk.Record.Going.tally`), so that no copy is gone
through again, although it may wait on a stack several times and the walk is entered again behind
each back edge. What is looked up is there: when a copy is on top of the stack and none of its
forward successors waits, they have preconditions, and what is settled stays settled meanwhile. -/

namespace Precond

open IR Precond.Flow

namespace Walk

/-! ### Callees -/

section

variable {S : Scope} {side : Side} {g : Graph} {s : Sub}

/-- Whatever is settled from stacks, the frame is left otherwise. -/
theorem settleStacked_fills (more levels : Nat) (hs : S.body side s) (hg : Graph.ofSub s = .ok g)
    (post : Constr) (t : String) (u : Unroll) :
    Fills S side g (fun _ => True) (settleStacked more levels side post t u) := by
  induction levels generalizing s g post t u with
  | zero => exact .rests (.throw _)
  | succ levels ih =>
    have hx : Keeps.Expands S side (enterSub (settleStacked more levels)) := fun post c hc =>
      .enterSub fun g' hg' => ⟨_, ih hc hg' post _ _⟩
    have hblock (t : String) (u : Unroll) : Fills S side g (fun _ => True)
        (settleBlock (settleStacked more levels) (enterSub (settleStacked more levels)) side g post t u) :=
      .settleBlock hx hs hg (fun _ _ => True.intro) fun _ _ _ => ih hs hg ..
    have hwork (fuel : Nat) (stack : List (String × Unroll)) : Fills S side g (fun _ => True)
        (workOff (settleStacked more levels) side g post fuel stack) := by
      induction fuel generalizing stack with
      | zero =>
        cases stack with
        | nil => exact .rests (.pure _)
        | cons c stack => exact .rests (.throw _)
      | succ fuel ihfuel =>
        obtain - | ⟨⟨t, u⟩, stack⟩ := stack
        · exact .rests (.pure _)
        refine Fills.bind (.rests (.env fun _ _ => .pure _)) fun e => .ite (ihfuel _) ?_
        cases pending e g u (g.forward t) with
        | nil => exact (hblock t u).bind fun _ => ihfuel _
        | cons c cs => exact ihfuel _
    refine ⟨fun {w} hw hgraph => ?_⟩
    rw [ending, settleStacked_succ hgraph, ← ending]
    refine ((hwork _ _).bind fun _ => .rests ?_).kept hw hgraph
    exact .env fun _ _ => .present _

theorem settleStacked_expands (more levels : Nat) :
    Keeps.Expands S side (enterSub (settleStacked more levels)) := fun post _ hc =>
  .enterSub fun _ hg => ⟨_, settleStacked_fills more levels hc hg post _ _⟩

end

namespace Record

/-! ### Records -/

/-- The precondition that a copy has for its successor: nothing if the edge is cut, or that which is
kept for the copy that it leads to. -/
def Found (g : Graph) (bound : Int) (e : Env) (t : String) (u : Unroll) (p : String × Constr) : Prop :=
  (g.isBackEdge t p.1 ∧ bound ≤ u.count p.1 + 1) ∨
    e.precond? p.1 (g.along u t p.1) = some p.2

/-- What a record tells of a walk. -/
structure Sound (g : Graph) (bound : Int) (log : List Event) : Prop where
  /-- The elements of a block are gone through once for a copy. -/
  once : (folds log).Nodup
  proper : ∀ k ∈ folds log, g.Proper bound k.1 k.2
  settled : ∀ k ∈ folds log, ∃ e, .settle k e ∈ log
  /-- When a copy is settled each of its successors has a precondition. -/
  available : .settle (t, u) e ∈ log → e.frame.targets.keys = g.succsOf t ∧
    ∀ p ∈ e.frame.targets, Found g bound e t u p
  /-- What is kept is kept for copies whose elements have been gone through. -/
  stored : .settle k e ∈ log → (e.precond? t u).isSome → (t, u) ∈ folds log
  /-- What is looked up is there. -/
  complete : .missing ∉ log

variable {P : Side → Env} {side : Side} {g : Graph} {bound : Int} {t : String} {u : Unroll} {e : Env}
  {log : List Event} {k : Key}

theorem Sound.nil : Sound g bound [] := ⟨List.nodup_nil, nofun, nofun, nofun, nofun, nofun⟩

theorem Sound.settle (h : Sound g bound log) (hkeys : e.frame.targets.keys = g.succsOf t)
    (hfound : ∀ p ∈ e.frame.targets, Found g bound e t u p)
    (hstored : ∀ t' u', (e.precond? t' u').isSome → (t', u') ∈ folds log) :
    Sound g bound (.settle (t, u) e :: log) where
  once := h.once
  proper := h.proper
  settled k hk := let ⟨e, he⟩ := h.settled k hk; ⟨e, List.mem_cons_of_mem _ he⟩
  available hmem := by
    rcases List.mem_cons.mp hmem with heq | hmem
    · cases heq
      exact ⟨hkeys, hfound⟩
    · exact h.available hmem
  stored hmem := by
    rcases List.mem_cons.mp hmem with heq | hmem
    · cases heq
      exact hstored _ _
    · exact h.stored hmem
  complete hmem := (List.mem_cons.mp hmem).elim nofun h.complete

theorem Sound.fold (h : Sound g bound log) (hnew : k ∉ folds log) (hk : g.Proper bound k.1 k.2)
    (hsettled : .settle k e ∈ log) : Sound g bound (.fold k :: log) where
  once := List.nodup_cons.mpr ⟨hnew, h.once⟩
  proper := List.forall_mem_cons.mpr ⟨hk, h.proper⟩
  settled := by
    refine List.forall_mem_cons.mpr ⟨⟨e, List.mem_cons_of_mem _ hsettled⟩, fun k' hk' => ?_⟩
    obtain ⟨e', he'⟩ := h.settled k' hk'
    exact ⟨e', List.mem_cons_of_mem _ he'⟩
  available hmem := h.available ((List.mem_cons.mp hmem).resolve_left nofun)
  stored hmem hpre :=
    List.mem_cons_of_mem k (h.stored ((List.mem_cons.mp hmem).resolve_left nofun) hpre)
  complete hmem := (List.mem_cons.mp hmem).elim nofun h.complete

/-- Wherever an edge that is not cut leads, the elements have been gone through. -/
theorem Sound.closed (h : Sound g bound log) (hk : (t, u) ∈ folds log) {x : String}
    (hx : x ∈ g.succsOf t) (hcut : g.isBackEdge t x → (u.count x + 1 : Int) < bound) :
    (x, g.along u t x) ∈ folds log := by
  obtain ⟨e, he⟩ := h.settled _ hk
  obtain ⟨hkeys, hfound⟩ := h.available he
  rw [← hkeys] at hx
  obtain ⟨⟨x, pre⟩, hp, rfl⟩ := List.mem_map.mp hx
  rcases hfound _ hp with ⟨hback, hbound⟩ | hpre
  · exact absurd hbound (Int.not_le.mpr (hcut hback))
  · exact h.stored he (Option.isSome_of_eq_some hpre)

/-! ### Walks in a graph -/

/-- The walk is in the graph. Just the copies whose elements have been gone through have a
precondition. -/
structure Going (P : Side → Env) (side : Side) (g : Graph) (bound : Int) (r : Recorded) : Prop where
  under : r.1.Under (.any P)
  graph : (r.1.env side).frame.graph = some g
  returns : (r.1.env side).frame.retPost.isSome
  limit : (r.1.env side).unrollBound = bound
  tally (t : String) (u : Unroll) : ((r.1.env side).precond? t u).isSome ↔ (t, u) ∈ folds r.2
  sound : Sound g bound r.2

/-- The walk goes on in the graph, and what has been settled stays settled. -/
structure Onward (P : Side → Env) (side : Side) (g : Graph) (bound : Int) (r r' : Recorded) : Prop
    extends Going P side g bound r' where
  kept : r.1.Kept (Scope.any P).rule (At side (Filled fun _ => True)) r'.1

variable {r r₁ r₂ : Recorded} {w₁ : World} {c : Constr} {p : String × Constr}

namespace Onward

theorem refl (h : Going P side g bound r) : Onward P side g bound r r := ⟨h, .refl _⟩

theorem trans (h₁ : Onward P side g bound r r₁) (h₂ : Onward P side g bound r₁ r₂) :
    Onward P side g bound r r₂ := ⟨h₂.toGoing, h₁.kept.trans h₂.kept⟩

theorem filled (h : Onward P side g bound r r₁) :
    Filled (fun _ => True) (r.1.env side).frame (r₁.1.env side).frame := by
  have hf := (h.kept.env side).frame
  rwa [at_self] at hf

theorem precond (h : Onward P side g bound r r₁) (hc : (r.1.env side).precond? t u = some c) :
    (r₁.1.env side).precond? t u = some c := h.filled.kept hc

theorem isSome (h : Onward P side g bound r r₁) (hc : ((r.1.env side).precond? t u).isSome) :
    ((r₁.1.env side).precond? t u).isSome :=
  let ⟨_, hc⟩ := Option.isSome_iff_exists.mp hc
  Option.isSome_of_eq_some (h.precond hc)

theorem found (h : Onward P side g bound r r₁) (hp : Found g bound (r.1.env side) t u p) :
    Found g bound (r₁.1.env side) t u p := hp.imp_right h.precond

end Onward

/-- The walk goes on where preconditions and record are as they were, or both have grown. -/
theorem Going.onward (h : Going P side g bound r)
    (hk : r.1.Kept (Scope.any P).rule (At side (Filled fun _ => True)) r₁.1)
    (htally : ∀ t u, ((r₁.1.env side).precond? t u).isSome ↔ (t, u) ∈ folds r₁.2)
    (hsound : Sound g bound r₁.2) : Onward P side g bound r r₁ := by
  have hf := (hk.env side).frame
  rw [at_self] at hf
  refine ⟨⟨hk.under h.under, hf.graph.trans h.graph, ?_, ?_, htally, hsound⟩, hk⟩
  · rw [hf.retPost]
    exact h.returns
  · rw [(hk.env side).unrollBound]
    exact h.limit

/-- Where a walk in the graph ends: with a result of which `Q` holds, or with a fault. -/
structure Carries (P : Side → Env) (side : Side) (g : Graph) (bound : Int)
    (Q : α → Recorded → Prop) (x : Recorder α) (r : Recorded) : Prop where
  ends : Going P side g bound r → match x r with
    | .ok a r' => Onward P side g bound r r' ∧ Q a r'
    | .error _ r' => Sound g bound r'.2

namespace Carries

variable {Q : α → Recorded → Prop} {x : Recorder α}

theorem pure {a : α} (h : Q a r) : Carries P side g bound Q (Pure.pure a) r :=
  ⟨fun hr => ⟨.refl hr, h⟩⟩

theorem throw (f : Fault) : Carries P side g bound Q (MonadExcept.throw f) r := ⟨fun hr => hr.sound⟩

theorem demand {o : Option α} (h : ∃ a, o = some a ∧ Q a r) :
    Carries P side g bound Q (Record.demand o) r := by
  obtain ⟨a, rfl, hQ⟩ := h
  exact pure hQ

theorem mono {Q' : α → Recorded → Prop} (h : Carries P side g bound Q x r)
    (hQ : ∀ a r', Onward P side g bound r r' → Q a r' → Q' a r') : Carries P side g bound Q' x r := by
  refine ⟨fun hr => ?_⟩
  have hends := h.ends hr
  cases hx : x r with
  | ok a r' =>
    rw [hx] at hends
    exact ⟨hends.1, hQ a r' hends.1 hends.2⟩
  | error f r' =>
    rw [hx] at hends
    exact hends

theorem bind {R : β → Recorded → Prop} {k : α → Recorder β} (h : Carries P side g bound Q x r)
    (hk : ∀ a r', Onward P side g bound r r' → Q a r' → Carries P side g bound R (k a) r') :
    Carries P side g bound R (x >>= k) r := by
  refine ⟨fun hr => ?_⟩
  have hends := h.ends hr
  change match EStateM.bind x k r with
    | .ok b r' => _
    | .error _ r' => _
  rw [EStateM.bind]
  cases hx : x r with
  | error f r' =>
    rw [hx] at hends
    exact hends
  | ok a r' =>
    rw [hx] at hends
    have hrest := (hk a r' hends.1 hends.2).ends hends.1.toGoing
    dsimp only
    cases hb : k a r' with
    | error f r'' =>
      rw [hb] at hrest
      exact hrest
    | ok b r'' =>
      rw [hb] at hrest
      exact ⟨hends.1.trans hrest.1, hrest.2⟩

/-- Something is known of the walk so far. -/
theorem given (h : Going P side g bound r → Carries P side g bound Q x r) :
    Carries P side g bound Q x r := ⟨fun hr => (h hr).ends hr⟩

theorem env {k : Env → Recorder α} (h : Carries P side g bound Q (k (r.1.env side)) r) :
    Carries P side g bound Q (quietly (Walk.env side) >>= k) r := ⟨fun hr => h.ends hr⟩

/-- A walk that leaves the frame as it is. -/
theorem rests {act : Walk α} (h : Keeps.Rests (Scope.any P) act) :
    Carries P side g bound (fun _ _ => True) (quietly act) r := by
  refine ⟨fun hr => ?_⟩
  have hk := h.kept hr.under
  rw [ending] at hk
  rw [quietly]
  cases hact : act r.1 with
  | error f w => exact hr.sound
  | ok a w =>
    rw [hact] at hk
    have hkept : r.1.Kept (Scope.any P).rule (At side (Filled fun _ => True)) w :=
      hk.mono fun side' _ _ hf => hf ▸ refl_of (At side _ side') _
    refine ⟨hr.onward hkept (fun t u => ?_) hr.sound, True.intro⟩
    rw [Env.precond?, ← (hk.env side).frame]
    exact hr.tally t u

end Carries

/-! ### Copies -/

/-- Copies are settled in the graph, and have a precondition then. -/
def Settles (P : Side → Env) (side : Side) (g : Graph) (bound : Int) (settle : Settle) : Prop :=
  ∀ post t u r, t ∈ g.blocks.keys → u.Tidy bound → Carries P side g bound
    (fun pre r' => (r'.1.env side).precond? t (g.restrict u t) = some pre) (settle side post t u) r

variable {settle : Settle} {post : Constr} {s : Sub}

theorem loopPre_carries (hsettle : Settles P side g bound settle) (hu : u.Tidy bound)
    {header : String} (hback : g.isBackEdge t header) (hheader : header ∈ g.blocks.keys) :
    Carries P side g bound (fun pre r' => Found g bound (r'.1.env side) t u (header, pre))
      (loopPre settle side post header u) r := by
  refine .given fun hr => .env ?_
  dsimp only
  split
  · rename_i hcut
    rw [hr.limit] at hcut
    exact (Carries.rests ((Keeps.note ..).bind fun _ => .mkGoal ..)).mono
      fun pre r' _ _ => .inl ⟨hback, hcut⟩
  · rename_i hcut
    rw [hr.limit] at hcut
    have htidy : (u.withCount header (u.count header + 1)).Tidy bound :=
      hu.withCount (Nat.succ_pos _) (by omega)
    refine (hsettle post header _ r hheader htidy).mono fun pre r' _ hpre => .inr ?_
    rw [Graph.along, if_pos hback]
    exact hpre

/-- The table has a precondition for each of the successors. -/
def Answers (side : Side) (g : Graph) (bound : Int) (t : String) (u : Unroll) (succs : List String)
    (targets : Table String Constr) (r : Recorded) : Prop :=
  targets.keys = succs ∧ ∀ p ∈ targets, Found g bound (r.1.env side) t u p

/-- A forward successor that has a precondition is looked up. -/
theorem demand_carries {x : String} (hx : ((r.1.env side).precond? x (g.restrict u x)).isSome)
    (hback : ¬ g.isBackEdge t x) : Carries P side g bound
      (fun pre r' => Found g bound (r'.1.env side) t u (x, pre))
      (quietly (env side) >>= fun e => demand (e.precond? x (g.restrict u x))) r := by
  obtain ⟨pre, hpre⟩ := Option.isSome_iff_exists.mp hx
  refine .env (.demand ⟨pre, hpre, .inr ?_⟩)
  rw [Graph.along, if_neg hback]
  exact hpre

theorem successorPres_carries (hs : g.Searched) (hsettle : Settles P side g bound settle)
    (hu : u.Tidy bound) {succs : List String} (hsuccs : succs ⊆ g.succsOf t)
    (hready : ∀ x ∈ succs, ¬ g.isBackEdge t x →
      ((r.1.env side).precond? x (g.restrict u x)).isSome) :
    Carries P side g bound (Answers side g bound t u succs)
      (successorPres settle side g post t u succs) r := by
  induction succs generalizing r with
  | nil => exact .pure ⟨rfl, nofun⟩
  | cons x succs ih =>
    have hrest {pre : Constr} {r' : Recorded} (hr' : Onward P side g bound r r')
        (hpre : Found g bound (r'.1.env side) t u (x, pre)) : Carries P side g bound
          (Answers side g bound t u (x :: succs))
          (do return (x, pre) :: (← successorPres settle side g post t u succs)) r' := by
      have hready' := fun y hy hback => hr'.isSome (hready y (List.mem_cons_of_mem x hy) hback)
      refine (ih (fun y hy => hsuccs (List.mem_cons_of_mem x hy)) hready').bind
        fun targets r'' hr'' ⟨hkeys, hfound⟩ => ?_
      exact .pure ⟨congrArg (x :: ·) hkeys, List.forall_mem_cons.mpr ⟨hr''.found hpre, hfound⟩⟩
    rw [successorPres]
    split
    · rename_i hback
      exact (loopPre_carries hsettle hu hback (hs.succs t (hsuccs List.mem_cons_self))).bind
        fun pre r' hr' hpre => hrest hr' hpre
    · rename_i hback
      rw [← bind_assoc]
      exact (demand_carries (hready x List.mem_cons_self hback) hback).bind
        fun pre r' hr' hpre => hrest hr' hpre

theorem trailing_carries (hof : g.Of s) (hnamed : ∀ b ∈ s.blks, b.tid ≠ "")
    {targets : Table String Constr} (htargets : targets.keys = g.succsOf t) :
    Carries P side g bound (fun _ _ => True) (trailing side g targets t) r := by
  unfold trailing
  cases hnext : (g.fallthrough.lookup t).join with
  | some next =>
    have hmem : next ∈ Table.keys targets := htargets ▸ hof.behind_mem hnamed hnext
    obtain ⟨pre, hpre⟩ := Option.isSome_iff_exists.mp (Table.mem_keys_iff.mp hmem)
    exact .demand ⟨pre, hpre, True.intro⟩
  | none =>
    refine .given fun hr => .env ?_
    obtain ⟨pre, hpre⟩ := Option.isSome_iff_exists.mp hr.returns
    exact .demand ⟨pre, hpre, True.intro⟩

/-- A block is visited when what its copy leads to has been settled. -/
theorem visitCopy_carries {expand : Expand} (hx : Keeps.Expands (Scope.any P) side expand)
    (hg : Graph.ofSub s = .ok g) {b : Blk} (hb : g.blocks.lookup t = some b)
    (hproper : g.Proper bound t u) {targets : Table String Constr}
    (htargets : Answers side g bound t u (g.succsOf t) targets r) (after : Constr) :
    Carries P side g bound (fun pre r' => (r'.1.env side).precond? t u = some pre)
      (visitCopy expand side g targets after t u b) r := by
  obtain ⟨hmem, rfl⟩ := block_mem hg hb
  refine ⟨fun hr => ?_⟩
  have hsettled : Sound g bound (settling side g targets b.tid u r).2 := by
    refine hr.sound.settle ?_ (fun p hp => ?_) fun t' u' => ?_
    · rw [placedAt, World.env_setEnv]
      exact htargets.1
    · rw [placedAt, World.env_setEnv] at hp
      exact (htargets.2 p hp).imp_right fun h => (placedAt_precond? ..).trans h
    · rw [placedAt_precond?]
      exact (hr.tally t' u').mp
  cases hpre : (r.1.env side).precond? b.tid u with
  | some pre =>
    rw [visitCopy_of_kept hpre]
    refine ⟨hr.onward (Fills.placed rfl rfl rfl rfl) (fun t' u' => ?_) hsettled,
      (placedAt_precond? ..).trans hpre⟩
    rw [placedAt_precond?]
    exact hr.tally t' u'
  | none =>
    have hnew : (b.tid, u) ∉ folds r.2 := by
      rw [← hr.tally, hpre]
      exact Bool.false_ne_true
    have hfolded := hsettled.fold hnew hproper List.mem_cons_self
    rw [visitCopy_of_new hpre, quietly]
    cases hrun : Walk.visitBlock expand side after b (settling side g targets b.tid u r).1 with
    | error f w => exact hfolded
    | ok pre w =>
      obtain ⟨hgrown, hall⟩ := visitBlock_precond hx True.intro hmem hr.under hpre hrun
      refine ⟨hr.onward hgrown (fun t' u' => ?_) hfolded, (hall ..).trans (if_pos rfl)⟩
      have hfolds : (t', u') ∈ folds (.fold (b.tid, u) :: (settling side g targets b.tid u r).2) ↔
          (b.tid, u) = (t', u') ∨ (t', u') ∈ folds r.2 := by
        rw [eq_comm]
        exact List.mem_cons
      rw [hfolds, ← hr.tally, hall]
      split
      · rename_i heq
        exact iff_of_true rfl (.inl heq)
      · rename_i hne
        rw [or_iff_right hne]

theorem settleBlock_carries {expand : Expand} (hx : Keeps.Expands (Scope.any P) side expand)
    (hg : Graph.ofSub s = .ok g) (hnamed : ∀ b ∈ s.blks, b.tid ≠ "")
    (hsettle : Settles P side g bound settle) (ht : t ∈ g.blocks.keys) (hproper : g.Proper bound t u)
    (hready : ∀ x ∈ g.forward t, ((r.1.env side).precond? x (g.restrict u x)).isSome) :
    Carries P side g bound (fun pre r' => (r'.1.env side).precond? t u = some pre)
      (settleBlock settle expand side g post t u) r := by
  have hforward : ∀ x ∈ g.succsOf t, ¬ g.isBackEdge t x →
      ((r.1.env side).precond? x (g.restrict u x)).isSome := fun x hx hback =>
    hready x (List.mem_filter.mpr ⟨hx, by simpa using hback⟩)
  refine (successorPres_carries (Graph.searched_ofSub hg) hsettle hproper.toTidy (List.Subset.refl _)
    hforward).bind fun targets r₁ _ ⟨hkeys, hfound⟩ => ?_
  refine (trailing_carries (Graph.of_ofSub hg) hnamed hkeys).bind fun after r₂ h₂ _ => ?_
  obtain ⟨b, hb⟩ := Option.isSome_iff_exists.mp (Table.mem_keys_iff.mp ht)
  refine Carries.bind (Q := fun b' _ => b' = b) (.demand ⟨b, hb, rfl⟩) fun b' r₃ h₃ hb' => ?_
  subst hb'
  exact visitCopy_carries hx hg hb hproper ⟨hkeys, fun p hp => h₃.found (h₂.found (hfound p hp))⟩ after

/-- The copies on a stack are settled. -/
theorem workOff_carries {expand : Expand} (hx : Keeps.Expands (Scope.any P) side expand)
    (hg : Graph.ofSub s = .ok g) (hnamed : ∀ b ∈ s.blks, b.tid ≠ "")
    (hsettle : Settles P side g bound settle) {fuel : Nat} {stack : List Key}
    (hstack : ∀ k ∈ stack, k.1 ∈ g.blocks.keys ∧ g.Proper bound k.1 k.2) :
    Carries P side g bound (fun _ r' => ∀ k ∈ stack, ((r'.1.env side).precond? k.1 k.2).isSome)
      (workOff settle expand side g post fuel stack) r := by
  induction fuel generalizing stack r with
  | zero =>
    cases stack with
    | nil => exact .pure nofun
    | cons k stack => exact .throw _
  | succ fuel ih =>
    obtain - | ⟨⟨t, u⟩, stack⟩ := stack
    · exact .pure nofun
    obtain ⟨⟨ht, hproper⟩, hrest⟩ := List.forall_mem_cons.mp hstack
    refine .env ?_
    split
    · rename_i hkept
      exact (ih hrest).mono fun _ r' hr' hall => List.forall_mem_cons.mpr ⟨hr'.isSome hkept, hall⟩
    cases hpending : pending (r.1.env side) g u (g.forward t) with
    | nil =>
      refine (settleBlock_carries hx hg hnamed hsettle ht hproper (pending_eq_nil.mp hpending)).bind
        fun pre r₁ h₁ hpre => (ih hrest).mono fun _ r' hr' hall => ?_
      exact List.forall_mem_cons.mpr ⟨hr'.isSome (Option.isSome_of_eq_some hpre), hall⟩
    | cons c cs =>
      have hwaits : ∀ k ∈ c :: cs, k.1 ∈ g.blocks.keys ∧ g.Proper bound k.1 k.2 := by
        intro k hk
        rw [← hpending, pending] at hk
        obtain ⟨x, hx, rfl⟩ := List.mem_map.mp (List.mem_of_mem_filter hk)
        exact ⟨(Graph.searched_ofSub hg).succs t (List.mem_of_mem_filter hx),
          Graph.proper_restrict hproper.toTidy g x⟩
      refine (ih (List.forall_mem_append.mpr ⟨hwaits, hstack⟩)).mono fun _ r' _ hall => ?_
      exact (List.forall_mem_append.mp hall).2

theorem settleStacked_carries (more levels : Nat) (hg : Graph.ofSub s = .ok g)
    (hnamed : ∀ b ∈ s.blks, b.tid ≠ "") :
    Settles P side g bound (settleStacked more levels) := by
  induction levels with
  | zero => exact fun _ _ _ _ _ _ => .throw _
  | succ levels ih =>
    intro post t u r ht hu
    refine .given fun hr => .env ?_
    refine Carries.bind (Q := fun g' _ => g' = g) (.demand ⟨g, hr.graph, rfl⟩) fun g' r₁ h₁ hg' => ?_
    subst hg'
    have hroot : ∀ k ∈ [(t, g'.restrict u t)], k.1 ∈ g'.blocks.keys ∧ g'.Proper bound k.1 k.2 :=
      List.forall_mem_singleton.mpr ⟨ht, Graph.proper_restrict hu g' t⟩
    refine (workOff_carries (settleStacked_expands more levels) hg hnamed ih hroot).bind
      fun _ r₂ h₂ hall => .env ?_
    obtain ⟨pre, hpre⟩ := Option.isSome_iff_exists.mp (hall _ List.mem_cons_self)
    exact .demand ⟨pre, hpre, hpre⟩

/-! ### Subroutines -/

/-- Nothing is kept and nothing recorded where the frame has been opened. -/
theorem opened_going {w : World} (hw : w.Under (.any P))
    (hfresh : (w.env side).frame.root = some (s.tid, post.id) → ∀ t u, (w.env side).precond? t u = none) :
    Going P side g (w.env side).unrollBound (opened w side s post g, []) := by
  have henv : (opened w side s post g).env side = { w.env side with frame := { (w.env side).frame with
      preconds := if (w.env side).frame.root = some (s.tid, post.id) then (w.env side).frame.preconds else {}
      root := some (s.tid, post.id), graph := some g, retPost := some post } } := World.env_setEnv ..
  have hnone (t : String) (u : Unroll) : ((opened w side s post g).env side).precond? t u = none := by
    rw [henv, Env.precond?]
    dsimp only
    split
    · rename_i hroot
      exact hfresh hroot t u
    · exact Std.HashMap.getElem?_empty ..
  refine ⟨hw.setEnv rfl rfl, ?_, ?_, ?_, fun t u => ?_, .nil⟩
  · rw [henv]
  · rw [henv]
    rfl
  · rw [henv]
  · rw [hnone]
    exact iff_of_false Bool.false_ne_true List.not_mem_nil

/-- The variables are bound before a frame is opened. -/
theorem bindVars_fresh {w w₁ : World} {a : PUnit} (h : bindVars side s (attached w side) = .ok a w₁) :
    w₁.Under (.any fun side => (w.env side).policy) ∧ (w₁.env side).frame = (w.env side).frame ∧
      (w₁.env side).unrollBound = (w.env side).unrollBound := by
  have hattached : (attached w side).env side = { w.env side with attached := true } := World.env_setEnv ..
  have hunder : (attached w side).Under (.any fun side => (w.env side).policy) :=
    w.under_any.setEnv rfl rfl
  have hbound := (Steady.bindVars s).toKeeps.of_ok hunder h
  refine ⟨hbound.under hunder, ?_, ?_⟩
  · rw [← (hbound.env side).frame, hattached]
  · rw [(hbound.env side).unrollBound, hattached]

/-- The record of the walk of a subroutine that nothing is kept for. -/
theorem enterSub_sound (more levels : Nat) (hnamed : ∀ b ∈ s.blks, b.tid ≠ "") {w : World}
    (hfresh : (w.env side).frame.root = some (s.tid, post.id) → ∀ t u, (w.env side).precond? t u = none) :
    (∀ g, Graph.ofSub s = .ok g → Sound g (w.env side).unrollBound
      (ending (enterSub (settleStacked more levels) side post s) (w, [])).2) ∧
    ∀ c r, enterSub (settleStacked more levels) side post s (w, []) = .ok c r →
      ∃ g, Graph.ofSub s = .ok g ∧ (r.1.env side).precond? g.entry [] = some c ∧
        ∀ t u, ((r.1.env side).precond? t u).isSome ↔ (t, u) ∈ folds r.2 := by
  rw [ending]
  rcases enterSub_run (settleStacked more levels) side post s (w, []) with
    ⟨f, w₁, hrun⟩ | ⟨g, a, w₁, hg, hbind, hrun⟩
  · rw [hrun]
    exact ⟨fun _ _ => .nil, fun _ _ h => by cases h⟩
  obtain ⟨hunder, hframe, hlimit⟩ := bindVars_fresh hbind
  have hfresh₁ : (w₁.env side).frame.root = some (s.tid, post.id) →
      ∀ t u, (w₁.env side).precond? t u = none := by
    simp only [Env.precond?, hframe]
    exact hfresh
  have hentry : g.entry ∈ g.blocks.keys := (Graph.searched_ofSub hg).entry
  have hends := (settleStacked_carries more levels hg hnamed post g.entry [] _ hentry .nil).ends
    (opened_going hunder hfresh₁)
  rw [hlimit] at hends
  rw [hrun, opening]
  cases hsettle : settleStacked more levels side post g.entry [] (opened w₁ side s post g, []) with
  | error f r =>
    rw [hsettle] at hends
    refine ⟨fun g' hg' => ?_, fun _ _ h => by cases h⟩
    cases hg.symm.trans hg'
    exact hends
  | ok c r =>
    rw [hsettle] at hends
    obtain ⟨hon, hpre⟩ := hends
    refine ⟨fun g' hg' => ?_, fun c' r' hr' => ?_⟩
    · cases hg.symm.trans hg'
      exact hon.sound
    · cases hr'
      rw [closed, World.env_setEnv]
      exact ⟨g, hg, hpre, hon.tally⟩

end Record

/-- Each copy of a block is settled once. The walk of a subroutine is that from stacks, which a walk
with a record is too. Where nothing is kept for the subroutine before, the record tells, also of a
walk that fails: the elements of a block are gone through once at most for a copy, in a proper
context; when a copy is settled, each of its successors has a precondition; and all that is looked up
is there. After a walk that succeeds, the copies with a precondition are those whose elements have
been gone through, the copy of the entry among them. This holds for all levels and steps, and so
also of a callee, which is entered with fewer levels in a frame that nothing is kept in. -/
theorem visitSub_folds (side : Side) (post : Constr) (s : Sub) (w : World)
    (hnamed : ∀ b ∈ s.blks, b.tid ≠ "")
    (hfresh : (w.env side).frame.root = some (s.tid, post.id) → ∀ t u, (w.env side).precond? t u = none)
    (more : Nat) :
    visitSub side post s w = enterSub (settleStacked more (depthBound (w.env side) s)) side post s w ∧
    ∀ levels,
      Record.erase (Record.enterSub (Record.settleStacked more levels) side post s (w, [])) =
        enterSub (settleStacked more levels) side post s w ∧
      (∀ g, Graph.ofSub s = .ok g → Record.Sound g (w.env side).unrollBound
        (ending (Record.enterSub (Record.settleStacked more levels) side post s) (w, [])).2) ∧
      ∀ c r, Record.enterSub (Record.settleStacked more levels) side post s (w, []) = .ok c r →
        ∃ g, Graph.ofSub s = .ok g ∧ (r.1.env side).precond? g.entry [] = some c ∧
          ∀ t u, ((r.1.env side).precond? t u).isSome ↔ (t, u) ∈ folds r.2 := by
  refine ⟨?_, fun levels => ⟨Record.enterSub_erase .., Record.enterSub_sound more levels hnamed hfresh⟩⟩
  exact (visitSub_agree side post s w (settleStacked_settling more _)).same.symm

/-- The loop has two copies, and its elements are gone through for both. -/
theorem visitSub_folds_countdown :
    ∃ c r g, Record.enterSub (Record.settleStacked 0 (depthBound (twice.env .orig) countdown)) .orig
        (.goal 0 "zero" zero none) countdown (twice, []) = .ok c r ∧
      Graph.ofSub countdown = .ok g ∧ Record.Sound g 2 r.2 ∧ ("%loop", []) ∈ folds r.2 ∧
      ("%loop", [("%loop", 1)]) ∈ folds r.2 := by
  obtain ⟨pre, w', h, -⟩ := countdown_visited
  obtain ⟨hvisit, hall⟩ := visitSub_folds .orig (.goal 0 "zero" zero none) countdown twice (by decide)
    (fun h => by cases h) 0
  obtain ⟨herase, hsound, hok⟩ := hall (depthBound (twice.env .orig) countdown)
  rw [← hvisit, h] at herase
  cases hrun : Record.enterSub (Record.settleStacked 0 (depthBound (twice.env .orig) countdown)) .orig
      (.goal 0 "zero" zero none) countdown (twice, []) with
  | error f r =>
    rw [hrun] at herase
    cases herase
  | ok c r =>
    obtain ⟨g, hg, hroot, htally⟩ := hok c r hrun
    replace hsound := hsound g hg
    rw [ending_of_ok hrun] at hsound
    cases hg.symm.trans (Graph.ofSub_lap rfl rfl)
    have hentry := (htally _ []).mp (Option.isSome_of_eq_some hroot)
    refine ⟨c, r, _, rfl, hg, hsound, hentry, hsound.closed hentry (x := "%loop") ?_ fun _ => ?_⟩
    · exact List.mem_singleton_self _
    · decide

end Walk

end Precond

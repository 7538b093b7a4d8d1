import Precond.Proofs.Exact.Healthiness
import Precond.Proofs.Exact.Conditions
import Precond.Proofs.Exact.Unrolling
import Precond.Proofs.Exact.Weaker
import Precond.Proofs.Walk.Meeting
import Precond.Proofs.Walk.Respects

/-! A larger unroll bound asks for more. Two walks with different bounds meet the same copies of blocks.
Where the one with the larger bound cuts a back edge, the other one does so too; where only the other one
cuts it, nothing is asked behind it there. All else is monotone (`Lanes.Both.plainNode`). Both walks choose
the same rules for calls in the end, and each comes to what it comes to where these have been chosen from
the start (`Walk.visitSub_ruled`). So the precondition for the larger bound implies the one for the smaller
(`Walk.visitSub_bounds`). -/

namespace Precond

open IR Precond.Flow Walk

namespace Lanes

/-- The first walk by itself. -/
def alone (L : Lanes) : Lanes := { L with bound' := L.bound }

/-- Where the first walk cuts a back edge, the second one does so too. -/
def Cuts (L : Lanes) : Prop := ∀ k : Nat, L.bound ≤ k + 1 → L.bound' ≤ k + 1

/-- Copies of blocks are settled alike. -/
def Settling (L : Lanes) (settle settle' : Settle) : Prop :=
  ∀ {c d : Constr}, c.Entails d → ∀ (t : String) (u : Unroll),
    L.Even L.Shared Constr.Entails (settle L.side c t u) (settle' L.side d t u)

/-- Preconditions of the same blocks. -/
def Listed : Table String Constr → Table String Constr → Prop :=
  List.Forall₂ fun p q => p.1 = q.1 ∧ p.2.Entails q.2

variable {L : Lanes} {w w' w₁ : World} {c d after after' : Constr} {t : String} {u : Unroll}
  {targets targets' : Table String Constr} {settle settle' : Settle} {g : Graph}

theorem Cuts.alone (L : Lanes) : L.alone.Cuts := fun _ h => h

/-- The second walk notes something. -/
theorem Alongside.noted {F : Frame → Frame → Prop} (hw : L.Alongside (fun _ => []) F w w')
    (weakenings : List Weakening) :
    L.Alongside (fun _ => []) F w (w'.setEnv L.side { w'.env L.side with weakenings }) := by
  have hset : L.Alongside (fun _ => []) F (w.setEnv L.side (w.env L.side))
      (w'.setEnv L.side { w'.env L.side with weakenings }) :=
    hw.setEnv ((hw.envs L.side).moved rfl rfl) ⟨rfl, rfl, rfl, rfl, rfl⟩ ⟨rfl, rfl, rfl, rfl, rfl⟩
  rwa [World.setEnv_env] at hset

/-- The first walk goes on while the second one stays. -/
theorem Alongside.ahead {n : Nat} (hself : L.alone.Settling (plainNode n) (plainNode n))
    (hw : L.Alongside (fun _ => []) L.Shared w w') (h : plainNode n L.side c t u w = .ok d w₁) :
    L.Alongside (fun _ => []) L.Shared w₁ w' := by
  have halone : L.alone.Alongside (fun _ => []) L.alone.Shared w w := {
    envs := fun s => (hw.envs s).symm_left
    policy := hw.policy
    inlining := rfl
    rules := hw.rules
    rules' := hw.rules
    bound := hw.bound
    bound' := hw.bound
    frame := by
      refine ⟨rfl, hw.frame.built, ?_⟩
      show Option.Rel Constr.Entails (w.env L.side).frame.retPost (w.env L.side).frame.retPost
      cases (w.env L.side).frame.retPost with
      | some c => exact .some (.refl c)
      | none => exact .none }
  obtain ⟨-, h₁⟩ := (hself (.refl c) t u).run halone h h
  obtain ⟨g, hgraph⟩ : ∃ g, (w.env L.side).frame.graph = some g := by
    cases n with
    | zero => cases h
    | succ n =>
      rw [plainNode] at h
      obtain ⟨e, _, he, h⟩ := bind_ok h
      cases he
      obtain ⟨g, _, hg, -⟩ := bind_ok h
      exact ⟨g, (present_ok hg).1⟩
  obtain ⟨s, -, hg⟩ := hw.frame.built hgraph
  have hunder : w.Under (.any fun s => (w.env s).policy) := ⟨fun _ => rfl, fun _ => True.intro⟩
  have hkept := (plainNode_fills (S := .any fun s => (w.env s).policy) (s := s) n True.intro hg c t u).of_ok
    hunder hgraph h
  have hframe : Filled (fun _ => False) (w.env L.side).frame (w₁.env L.side).frame := by
    have hf := (hkept.env L.side).frame
    rwa [at_self] at hf
  exact {
    envs := fun s => ⟨(hw.envs s).policy.trans (hkept.env s).policy.symm, (h₁.envs s).left, (hw.envs s).right,
      fun h => absurd h List.not_mem_nil⟩
    policy := (hkept.env L.side).policy.trans hw.policy
    inlining := hw.inlining.trans (hkept.env L.side).inlining.symm
    rules := h₁.rules
    rules' := hw.rules'
    bound := (hkept.env L.side).unrollBound.trans hw.bound
    bound' := hw.bound'
    frame := by
      refine ⟨hw.frame.graph.trans hframe.graph.symm, fun hg => hw.frame.built (hframe.graph ▸ hg), ?_⟩
      rw [hframe.retPost]
      exact hw.frame.retPost }

namespace Both

/-- The walks are at other places in their frames. -/
theorem placing {α β : Type} {F G : Frame → Frame → Prop} {A : α → β → Prop} {f f' : Frame → Frame}
    {x : Walk α} {x' : Walk β} (hf : ∀ a b, F a b → G (f a) (f' b)) (hG : ∀ a b, G a b → F a b)
    (h : L.Even G A x x') : L.Even F A
      (do
        modifyEnv L.side fun e => { e with frame := f e.frame }
        x)
      (do
        modifyEnv L.side fun e => { e with frame := f' e.frame }
        x') := by
  refine ⟨fun {w w' _ _ _ _} hw ha hb => ?_⟩
  obtain ⟨_, w₁, h₁, ha⟩ := bind_ok ha
  obtain rfl := modifyEnv_ok h₁
  obtain ⟨_, w₁', h₁', hb⟩ := bind_ok hb
  obtain rfl := modifyEnv_ok h₁'
  have hmoved : L.Alongside (fun _ => []) G
      (w.setEnv L.side { w.env L.side with frame := f (w.env L.side).frame })
      (w'.setEnv L.side { w'.env L.side with frame := f' (w'.env L.side).frame }) :=
    hw.moved rfl rfl hw.inlining rfl rfl (hf _ _ hw.frame)
  obtain ⟨hA, h₂⟩ := h.run hmoved ha hb
  exact ⟨hA, h₂.mono (hG _ _)⟩

/-- Behind a back edge. Where the second walk cuts it and the first one does not, the second one asks for
nothing. -/
theorem loopPre {n n' : Nat} (hcuts : L.Cuts)
    (hself : L.alone.Settling (Walk.plainNode n) (Walk.plainNode n))
    (hset : L.Settling (Walk.plainNode n) (Walk.plainNode n')) (hcd : c.Entails d) (header : String)
    (u : Unroll) : L.Even L.Shared Constr.Entails (Walk.loopPre (Walk.plainNode n) L.side c header u)
      (Walk.loopPre (Walk.plainNode n') L.side d header u) := by
  refine env fun e e' _ _ _ hb hb' _ => ?_
  rw [hb, hb']
  have hdepth : (u.count header + 1 : Nat) = (u.count header : Int) + 1 := Int.natCast_succ _
  by_cases hcut : L.bound ≤ (u.count header + 1 : Nat)
  · rw [if_pos hcut, if_pos (hdepth ▸ hcuts _ (hdepth ▸ hcut))]
    exact (note ..).after fun _ => mkGoal ..
  rw [if_neg hcut]
  by_cases hcut' : L.bound' ≤ (u.count header + 1 : Nat)
  · rw [if_pos hcut']
    refine ⟨fun {w w' w₁ _ a _} hw ha hb => ?_⟩
    obtain ⟨_, _, hnote, hb⟩ := bind_ok hb
    obtain ⟨e₁, he₁, rfl⟩ := on_ok hnote
    obtain rfl := Env.note_ok he₁
    obtain ⟨rfl, rfl⟩ := mkGoal_ok hb
    exact ⟨.nothing a, ((hw.ahead hself ha).noted _).congr (fun _ => rfl) fun s => by cases s <;> rfl⟩
  · rw [if_neg hcut']
    exact hset hcd ..

section

variable {F : Frame → Frame → Prop} {s : Sub} {expand expand' : Expand}

theorem aheadPres (hset : L.Settling settle settle') (hcd : c.Entails d) (succs : List String) :
    L.Even L.Shared Listed (Walk.aheadPres settle L.side g c u succs)
      (Walk.aheadPres settle' L.side g d u succs) := by
  induction succs with
  | nil => exact pure .nil
  | cons s succs ih => exact (hset hcd ..).bind fun _ _ h => ih.bind fun _ _ hs => pure (.cons ⟨rfl, h⟩ hs)

theorem edgePres {n n' : Nat} (hcuts : L.Cuts)
    (hself : L.alone.Settling (Walk.plainNode n) (Walk.plainNode n))
    (hset : L.Settling (Walk.plainNode n) (Walk.plainNode n')) (hcd : c.Entails d)
    {ahead ahead' : Table String Constr} (ha : Listed ahead ahead') (succs : List String) :
    L.Even L.Shared Listed (Walk.edgePres (Walk.plainNode n) L.side g c t u ahead succs)
      (Walk.edgePres (Walk.plainNode n') L.side g d t u ahead' succs) := by
  induction succs with
  | nil => exact pure .nil
  | cons s succs ih =>
    have hrest {p q : Constr} (h : p.Entails q) : L.Even L.Shared Listed
        (do return (s, p) :: (← Walk.edgePres (Walk.plainNode n) L.side g c t u ahead succs))
        (do return (s, q) :: (← Walk.edgePres (Walk.plainNode n') L.side g d t u ahead' succs)) :=
      ih.bind fun _ _ hs => pure (.cons ⟨rfl, h⟩ hs)
    rw [Walk.edgePres, Walk.edgePres]
    split
    · exact (loopPre hcuts hself hset hcd s u).bind fun _ _ h => hrest h
    · exact (present (Table.lookup_forall₂ ha s)).bind fun _ _ h => hrest h

theorem trailing (ht : Listed targets targets') (t : String) :
    L.Even L.Shared Constr.Entails (Walk.trailing L.side g targets t)
      (Walk.trailing L.side g targets' t) := by
  unfold Walk.trailing
  split
  · exact present (Table.lookup_forall₂ ht _)
  · exact env fun _ _ _ _ _ _ _ hf => present hf.retPost

/-- A block at the place of a copy of it. -/
theorem plainBlock (hx : L.Expanding expand expand') (hs : L.body s)
    (hg : Graph.ofSub s = .ok g) (ht : Listed targets targets') (ha : after.Entails after') :
    L.Even L.Shared Constr.Entails (Walk.plainBlock expand L.side g targets t u after)
      (Walk.plainBlock expand' L.side g targets' t u after') := by
  unfold Walk.plainBlock
  cases hb : g.blocks.lookup t with
  | none => exact throw _
  | some b =>
    refine (pure (A := fun x y => x = b ∧ y = b) ⟨rfl, rfl⟩).bind ?_
    rintro _ _ ⟨rfl, rfl⟩
    have hplaced (f f' : Frame) (hf : L.Shared f f') :
        L.Placed { f with targets, pred := g.predFor t u, unroll := u }
          { f' with targets := targets', pred := g.predFor t u, unroll := u } :=
      ⟨⟨hf.graph, hf.built, hf.retPost⟩, Table.lookup_forall₂ ht, rfl⟩
    exact placing hplaced (fun _ _ hf => hf.toShared)
      (visitElts hx hs (block_mem hg hb).1 (fun _ he => he) ha)

theorem bindVars (vs : List Var) :
    L.Even F Eq (forIn vs PUnit.unit fun v _ => do
        let _ ← Walk.on L.side (Env.mkVar v)
        Pure.pure (ForInStep.yield PUnit.unit))
      (forIn vs PUnit.unit fun v _ => do
        let _ ← Walk.on L.side (Env.mkVar v)
        Pure.pure (ForInStep.yield PUnit.unit)) := by
  induction vs with
  | nil => exact pure rfl
  | cons v vs ih =>
    simp only [List.forIn_cons, bind_assoc, pure_bind]
    exact (mkVar_same v).after fun _ => ih

/-- A subroutine is entered in a frame that is given back its graph and its postcondition. -/
theorem enterPlain (hF : ∀ f f' f₁ f₁' : Frame, F f f' →
      F { f₁ with graph := f.graph, retPost := f.retPost }
        { f₁' with graph := f'.graph, retPost := f'.retPost })
    (hset : L.Settling settle settle') (hs : L.body s) (hcd : c.Entails d) :
    L.Even F Constr.Entails (Walk.enterPlain settle L.side c s) (Walk.enterPlain settle' L.side d s) := by
  have hattached : L.Even F Eq (modifyEnv L.side fun e => { e with attached := true })
      (modifyEnv L.side fun e => { e with attached := true }) := by
    refine ⟨fun hw ha hb => ?_⟩
    obtain rfl := modifyEnv_ok ha
    obtain rfl := modifyEnv_ok hb
    exact ⟨rfl, hw.moved rfl rfl hw.inlining rfl rfl hw.frame⟩
  refine hattached.after fun _ => ?_
  cases hg : Graph.ofSub s with
  | error f => exact throw f
  | ok g =>
  refine (bindVars _).after fun _ => ⟨fun {w w' _ _ a b} hw ha hb => ?_⟩
  have ha' : plainOpening settle L.side c g w = .ok a _ := ha
  have hb' : plainOpening settle' L.side d g w' = .ok b _ := hb
  rw [plainOpening_eq] at ha' hb'
  have hin : L.Alongside (fun _ => []) L.Shared (plainOpened w L.side c g) (plainOpened w' L.side d g) := by
    refine hw.moved rfl rfl hw.inlining rfl rfl ⟨rfl, fun hgraph => ?_, .some hcd⟩
    cases hgraph
    exact ⟨s, hs, hg⟩
  cases hx : settle L.side c g.entry [] (plainOpened w L.side c g) with
  | error f w₁ =>
    rw [hx] at ha'
    cases ha'
  | ok x w₁ =>
  cases hx' : settle' L.side d g.entry [] (plainOpened w' L.side d g) with
  | error f w₁' =>
    rw [hx'] at hb'
    cases hb'
  | ok y w₁' =>
  rw [hx] at ha'
  rw [hx'] at hb'
  cases ha'
  cases hb'
  obtain ⟨hxy, h₁⟩ := (hset hcd ..).run hin hx hx'
  exact ⟨hxy, h₁.moved rfl rfl h₁.inlining rfl rfl (hF _ _ _ _ hw.frame)⟩

end

/-- The walk for a larger bound asks for more at each copy of a block. -/
theorem plainNode (n : Nat) : ∀ (L : Lanes) (n' : Nat), L.Cuts →
    L.Settling (Walk.plainNode n) (Walk.plainNode n') := by
  induction n with
  | zero => exact fun _ _ _ _ _ _ _ _ => throw _
  | succ n ih =>
    intro L n' hcuts c d hcd t u
    cases n' with
    | zero => exact ⟨fun _ _ hb => nomatch hb⟩
    | succ n' =>
    have hself : L.alone.Settling (Walk.plainNode n) (Walk.plainNode n) := ih L.alone n (Cuts.alone L)
    have hset : L.Settling (Walk.plainNode n) (Walk.plainNode n') := ih L n' hcuts
    have hx : L.Expanding (Walk.enterPlain (Walk.plainNode n)) (Walk.enterPlain (Walk.plainNode n')) :=
      fun hs hcd => enterPlain (fun _ _ _ _ hf => ⟨hf.graph, hf.built, hf.retPost⟩) hset hs hcd
    refine env fun e e' _ _ _ _ _ hf => ?_
    rw [hf.graph]
    cases hgraph : e.frame.graph with
    | none => exact throw _
    | some g =>
    obtain ⟨s, hs, hg⟩ := hf.built hgraph
    refine (pure (A := fun x y => x = g ∧ y = g) ⟨rfl, rfl⟩).bind ?_
    rintro _ _ ⟨rfl, rfl⟩
    refine (aheadPres hset hcd _).bind fun _ _ ha => ?_
    refine (edgePres hcuts hself hset hcd ha _).bind fun _ _ ht => ?_
    exact (trailing ht t).bind fun _ _ h => plainBlock hx hs hg ht h

end Both

end Lanes

/-! ### Rules that have been chosen -/

/-- Names are taken as they are in both environments. -/
def World.Verbatim (w : World) : Prop := ∀ side, (w.env side).Verbatim []

/-- The world with another unroll bound. -/
def World.bounded (w : World) (side : Side) (bound : Int) : World :=
  w.setEnv side { w.env side with unrollBound := bound }

/-- The world with other rules for calls. -/
def World.ruled (w : World) (side : Side) (rules : Table String Handler) : World :=
  w.setEnv side { w.env side with handlers := rules }

namespace World

variable {w : World} {side : Side} {rules : Table String Handler}

theorem bounded_env (w : World) (side : Side) (bound : Int) :
    (w.bounded side bound).env side = { w.env side with unrollBound := bound } := env_setEnv ..

theorem bounded_core (w : World) (side side' : Side) (bound : Int) :
    ((w.bounded side bound).env side').core = (w.env side').core := same_setEnv (by rfl) side'

theorem bounded_frame (w : World) (side : Side) (bound : Int) :
    ((w.bounded side bound).env side).frame = (w.env side).frame := by rw [bounded_env]

/-- The rules are among those that may be chosen. -/
theorem Kept.ruled {R : Side → String → CallRule → Prop} (hgrows : Table.Grows (w.env side).handlers rules)
    (hrules : ∀ t h, rules.lookup t = some h → R side t h.rule) :
    w.Kept R (At side fun _ _ => True) (w.ruled side rules) :=
  .setEnv ⟨⟨rfl, .refl _, .refl _, .refl _, .refl _, hgrows⟩, rfl, rfl, refl_of _ _, .inl, .inl,
    fun h => .inr (hrules _ _ h)⟩

theorem Verbatim.bounded (hw : w.Verbatim) (side : Side) (bound : Int) : (w.bounded side bound).Verbatim :=
  fun side' => (hw side').moved (bounded_core w side side' bound)

theorem Verbatim.ruled (hw : w.Verbatim) : (w.ruled side rules).Verbatim := by
  intro side'
  have h := hw side'
  by_cases hs : side' = side
  · subst hs
    rw [World.ruled, env_setEnv]
    exact ⟨h.freshen, h.vars, h.called, h.funcs⟩
  · rw [World.ruled, env_setEnv_of_ne _ _ _ hs]
    exact h

end World

namespace Env

variable {e : Env} {s c : Sub} {t name : String} {rules : Table String Handler} {h : Handler}

/-- The rules that a walk of `s` has chosen, and some rule for each call of the program that it has not
come to. -/
def completed (e : Env) (s : Sub) (rules : Table String Handler) : Table String Handler :=
  rules ++ (s :: e.subs).flatMap fun c => c.blks.flatMap fun b => (callsOf b.elts).map fun name =>
    ((e.callee name).tid, ⟨.default, e.callee name⟩)

theorem completed_grows (e : Env) (s : Sub) (rules : Table String Handler) :
    Table.Grows rules (e.completed s rules) := fun t h ht => by
  rw [completed, List.lookup_append, ht, Option.some_or]

theorem completed_cases (h : (e.completed s rules).lookup t = some k) :
    rules.lookup t = some k ∨ k.rule = .default := by
  rw [completed, List.lookup_append, Option.or_eq_some_iff] at h
  rcases h with h | ⟨-, h⟩
  · exact .inl h
  obtain ⟨_, -, hmem⟩ := List.mem_flatMap.mp (Table.mem_of_lookup h)
  obtain ⟨_, -, hmem⟩ := List.mem_flatMap.mp hmem
  obtain ⟨_, -, heq⟩ := List.mem_map.mp hmem
  cases heq
  exact .inr rfl

/-- The bodies that are walked are of the program. -/
theorem Expands.mem (h : e.Expands s c) : c ∈ s :: e.subs ∨ c.blks = [] := by
  cases h with
  | self => exact .inl List.mem_cons_self
  | @callee _ name =>
    unfold Env.callee
    cases hf : e.findSub? (.direct name) with
    | some a => exact .inl (List.mem_cons_of_mem _ (List.mem_of_find?_eq_some hf))
    | none => exact .inr rfl

theorem completed_some (hc : e.Expands s c) (hcall : c.CallsTo name) :
    ∃ h, (e.completed s rules).lookup (e.callee name).tid = some h := by
  obtain ⟨b, hb, ⟨_, cond, tid⟩, ret, hj, rfl⟩ := hcall
  have hmem : c ∈ s :: e.subs := hc.mem.resolve_right fun h => List.not_mem_nil (h ▸ hb)
  have hname : name ∈ callsOf b.elts := List.mem_reverse.mpr (List.mem_filterMap.mpr ⟨_, hj, rfl⟩)
  have hentry : ((e.callee name).tid, ⟨.default, e.callee name⟩) ∈ e.completed s rules :=
    List.mem_append_right _
      (List.mem_flatMap.mpr ⟨c, hmem, List.mem_flatMap.mpr ⟨b, hb, List.mem_map_of_mem hname⟩⟩)
  exact Option.isSome_iff_exists.mp (Table.mem_keys_iff.mp (List.mem_map_of_mem hentry))

end Env

/-- A subroutine is walked that draws no names. Other subroutines have not been walked before. -/
def Scope.lone (policy : Side → Env) (side : Side) {s : Sub} (h : (policy side).Nameless s) : Scope :=
  .nameless policy side h
    (fun side' t r => side' = side → r = .default ∨ (policy side).Offers s t r)
    (fun h _ => .inr h) fun _ _ hr => hr rfl

/-- Two walks of a subroutine for which the rules for all calls have been chosen. -/
def Lanes.chosen (side : Side) {policy : Env} {s : Sub} {rules : Table String Handler}
    (h : policy.Nameless s)
    (hrules : ∀ t h, rules.lookup t = some h → h.rule = .default ∨ policy.Offers s t h.rule)
    (htotal : ∀ {c name}, policy.Expands s c → c.CallsTo name →
      ∃ h, rules.lookup (policy.callee name).tid = some h) (bound bound' : Int) : Lanes where
  side := side
  policy := policy
  bound := bound
  bound' := bound'
  body := policy.Expands s
  rules := rules
  sideRules := h.sideRules
  elts := h.elts
  handled hs hcall :=
    let ⟨k, hk⟩ := htotal hs hcall
    ⟨k, hk, h.offered hs hcall (hrules _ k hk)⟩

namespace Walk

/-- A world to which a walk with an unroll bound may come from `w`, with the rules for calls that have been
chosen. -/
structure Ended (S : Scope) (side : Side) (bound : Int) (w : World) (rules : Table String Handler)
    (z : World) : Prop where
  kept : (w.bounded side bound).Kept S.rule (At side fun _ _ => True) z
  verbatim : z.Verbatim
  rules : (z.env side).handlers = rules

theorem Ended.policy {S : Scope} {side : Side} {bound : Int} {w z : World} {rules : Table String Handler}
    (h : Ended S side bound w rules z) (side' : Side) : (z.env side').policy = (w.env side').policy :=
  (h.kept.env side').policy.trans (Env.Before.of_core (World.bounded_core w side side' bound)).policy

/-- Walks with two bounds may be run side by side from where they have ended. -/
theorem Ended.alongside {S : Scope} {L : Lanes} {w z z' : World} (h : Ended S L.side L.bound w L.rules z)
    (h' : Ended S L.side L.bound' w L.rules z') (hpolicy : (w.env L.side).policy = L.policy) :
    L.Alongside (fun _ => []) (fun _ _ => True) z z' where
  envs side := ⟨(h'.policy side).trans (h.policy side).symm, h.verbatim side, h'.verbatim side, nofun⟩
  policy := (h.policy L.side).trans hpolicy
  inlining := by
    rw [(h'.kept.env L.side).inlining, (h.kept.env L.side).inlining, World.bounded_env, World.bounded_env]
  rules := h.rules
  rules' := h'.rules
  bound := by rw [(h.kept.env L.side).unrollBound, World.bounded_env]
  bound' := by rw [(h'.kept.env L.side).unrollBound, World.bounded_env]
  frame := True.intro

variable {side : Side} {w w₁ w₁' : World} {s : Sub} {post c d : Constr} {K : Constr → Prop}
  {F G : Term .bool}

section

variable {S : Scope} {bound bound' : Int} (hS : ¬ S.draws) (hs : S.body side s) (hw : w.Under S)
  (hK : Constr.Register K w.nodes) (hp : K post) (hkept : Unkept side K s w)

include hS hs hw hK hp hkept

/-- In the end, walks with any unroll bounds have chosen the same rules. -/
theorem visitSub_choices (h : visitSub side post s (w.bounded side bound) = .ok c w₁)
    (h' : visitSub side post s (w.bounded side bound') = .ok d w₁') :
    (w₁'.env side).choices = (w₁.env side).choices := by
  have hplain {bound : Int} {c : Constr} {w₁ : World}
      (h : visitSub side post s (w.bounded side bound) = .ok c w₁) : ∃ n d v,
      enterPlain (plainNode n) side post s (w.bounded side bound) = .ok d v ∧
        (w₁.env side).choices = (v.env side).choices := by
    obtain ⟨n, d, v, hd, -, hsame⟩ := visitSub_anew hS hs (hw.same fun side' => World.bounded_core ..)
      (by rw [World.bounded, World.nodes_setEnv]; exact hK) hp
      (by rw [World.bounded_frame]; exact hkept.root hp) h
    have hrules : (v.env side).handlers = (w₁.env side).handlers := by rw [Env.eq_of_core (hsame side)]
    exact ⟨n, d, v, hd, funext fun t => congrArg (List.lookup t) hrules.symm⟩
  obtain ⟨n, _, v, hv, hc⟩ := hplain h
  obtain ⟨n', _, v', hv', hc'⟩ := hplain h'
  rw [hc, hc']
  refine enterPlain_choices ?_ ?_ ?_ hv hv'
  all_goals rw [World.bounded_env, World.bounded_env]
  all_goals rfl

/-- A walk comes to the same where the rules have been chosen from the start. -/
theorem visitSub_ruled {rules : Table String Handler} (hv : w.Verbatim)
    (h : visitSub side post s (w.bounded side bound) = .ok c w₁)
    (hgrows : Table.Grows (w₁.env side).handlers rules)
    (hrules : ∀ t h, rules.lookup t = some h → S.rule side t h.rule) :
    Ended S side bound w rules (w₁.ruled side rules) ∧
      ∃ n d v, enterPlain (plainNode n) side post s (w₁.ruled side rules) = .ok d v ∧
        c.toFormula = d.plain := by
  have hw₀ : (w.bounded side bound).Under S := hw.same fun side' => World.bounded_core w side side' bound
  have hlater : w₁.Kept S.rule (At side fun _ _ => True) (w₁.ruled side rules) := .ruled hgrows hrules
  have hkept₁ := ((visitSub_kept hs).of_ok hw₀ h).trans hlater
  have hlinked : (Twin.same S side ((w.bounded side bound).env side).unrollBound).Linked
      (some (w₁.ruled side rules)) Any (w.bounded side bound) (w₁.ruled side rules) := {
    under := hw₀
    under' := hkept₁.under hw₀
    settled := fun hd => absurd hd hS
    tied := ⟨hkept₁.before, .refl _⟩
    inlining := fun side' => (hkept₁.env side').inlining
    register := False.elim
    low := Nat.zero_le _
    constant := False.elim
    bound := rfl
    bound' := (hkept₁.env side).unrollBound }
  obtain ⟨n, d, v, hd, hplain, -⟩ := visitSub_replayed hS hs hlinked
    (by rw [World.bounded, World.nodes_setEnv]; exact hK) hp
    (by rw [World.bounded_frame]; exact hkept.root hp) h hlater.before
  have hverbatim : w₁.Verbatim := fun side' =>
    (hv.bounded side bound side').of_gives (ending_of_ok h ▸ visitSub_gives side post s _ side')
  exact ⟨⟨hkept₁, hverbatim.ruled, World.env_setEnv .. ▸ rfl⟩, n, d, v, hd, hplain⟩

end

/-- Walks with unroll bounds of which the second one cuts wherever the first one does. -/
theorem visitSub_cuts {bound bound' : Int} (hK : Constr.Register K w.nodes) (hp : K post) (hw : w.Verbatim)
    (hrules : (w.env side).handlers = []) (hnames : (w.env side).policy.Nameless s)
    (hkept : Unkept side K s w) (hcuts : ∀ k : Nat, bound ≤ k + 1 → bound' ≤ k + 1)
    (hF : Asks side s (w.bounded side bound) post F) (hG : Asks side s (w.bounded side bound') post G)
    (m : Model) (hm : F.holds m = true) : G.holds m = true := by
  let S := Scope.lone (fun side => (w.env side).policy) side hnames
  have hbody : S.body side s := ⟨rfl, .self⟩
  have hunder : w.Under S := by
    refine ⟨fun _ => rfl, fun {side' t h} ht hside => ?_⟩
    subst hside
    rw [hrules] at ht
    cases ht
  obtain ⟨pre, w₁, hpre, hF⟩ := hF
  obtain ⟨pre', w₁', hpre', hG⟩ := hG
  -- both walks choose the same rules, and might as well start with them
  let rules := (w.env side).policy.completed s (w₁.env side).handlers
  have hgrows : Table.Grows (w₁.env side).handlers rules := Env.completed_grows _ _ _
  have hgrows' : Table.Grows (w₁'.env side).handlers rules := fun t h ht =>
    hgrows t h ((congrFun (visitSub_choices id hbody hunder hK hp hkept hpre hpre') t).symm.trans ht)
  have hoffered (t : String) (h : Handler) (ht : rules.lookup t = some h) : S.rule side t h.rule := by
    have hw₀ : (w.bounded side bound).Under S := hunder.same fun side' => World.bounded_core ..
    rcases Env.completed_cases ht with ht | hr
    · exact (((visitSub_kept hbody).of_ok hw₀ hpre).under hw₀).handlers ht
    · exact fun _ => .inl hr
  obtain ⟨hend, n, c, v, hc, hplain⟩ := visitSub_ruled id hbody hunder hK hp hkept hw hpre hgrows hoffered
  obtain ⟨hend', n', d, v', hd, hplain'⟩ :=
    visitSub_ruled id hbody hunder hK hp hkept hw hpre' hgrows' hoffered
  let L : Lanes := .chosen side hnames (fun t h ht => hoffered t h ht rfl) Env.completed_some bound bound'
  have halong : L.Alongside (fun _ => []) (fun _ _ => True) (w₁.ruled side rules) (w₁'.ruled side rules) :=
    Ended.alongside hend hend' rfl
  have hentails := ((Lanes.Both.enterPlain (F := fun _ _ => True) (fun _ _ _ _ _ => True.intro)
    (Lanes.Both.plainNode n L n' hcuts) .self (.refl post)).run halong hc hd).1
  have hF : c.plain = .ok F := hplain.symm.trans hF
  have hG : d.plain = .ok G := hplain'.symm.trans hG
  rw [← Constr.truth_of_plain hF] at hm
  rw [← Constr.truth_of_plain hG]
  exact hentails ⟨F, hF⟩ ⟨G, hG⟩ m hm

/-- A larger unroll bound asks for more: for a subroutine whose walk draws no names, the precondition for
one unrolling more implies the one for less, and without unrolling it is the same as with one. Names are
taken as they are, and no rule for calls has been chosen yet. -/
theorem visitSub_bounds (hK : Constr.Register K w.nodes) (hp : K post) (hw : w.Verbatim)
    (hrules : (w.env side).handlers = []) (hnames : (w.env side).policy.Nameless s)
    (hkept : Unkept side K s w) :
    (∀ n : Int, 1 ≤ n → ∀ F G, Asks side s (w.bounded side (n + 1)) post F →
      Asks side s (w.bounded side n) post G → ∀ m, F.holds m = true → G.holds m = true) ∧
    ∀ F G, Asks side s (w.bounded side 0) post F → Asks side s (w.bounded side 1) post G →
      ∀ m, F.holds m = G.holds m := by
  refine ⟨fun n _ F G hF hG => visitSub_cuts hK hp hw hrules hnames hkept (fun k hk => by omega) hF hG,
    fun F G hF hG m => Bool.eq_iff_iff.mpr ⟨?_, ?_⟩⟩
  · exact visitSub_cuts hK hp hw hrules hnames hkept (fun k _ => by omega) hF hG m
  · exact visitSub_cuts hK hp hw hrules hnames hkept (fun k _ => by omega) hG hF m

/-! ### A register that is counted down -/

/-- Nothing has been walked yet. -/
def counting : World := ⟨Env.start .arm [countdown], Env.start .arm [], 1, 0⟩

theorem countdown_closed : countdown.closed := by decide

theorem countdown_vars : sortByName countdown.vars = [⟨"R0", .word 32⟩] := by
  rw [show countdown.vars = [⟨"R0", .word 32⟩] by decide]
  simp [sortByName]

/-- The loop is walked twice. -/
theorem countdown_deeper : Succeeds (visitSub .orig sevenGoal countdown) (counting.bounded .orig 2)
    fun _ _ => True := by
  refine .step rfl (.enter (Graph.ofSub_lap rfl rfl) countdown_vars ?_)
  refine .step rfl (.step rfl (.step rfl (.step rfl (.restoring ?_))))
  refine .settle rfl (precond?_empty rfl ..) (.step rfl (.bind ?_))
  -- the second copy of the loop, behind which the back edge is cut
  refine .bind (.step rfl (.settle rfl (precond?_empty rfl ..) (.step rfl ?_)))
  refine .step rfl (.step rfl (.step rfl (.step rfl ?_)))
  dsimp only [World.bounded, World.setEnv, World.env]
  refine .block (precond?_empty rfl ..) (.now rfl ?_)
  dsimp only [World.bounded, World.setEnv, World.env, Env.addPrecond]
  -- the first copy
  refine .now rfl (.step rfl (.step rfl (.step rfl (.block ?_ (.now rfl True.intro)))))
  rw [precond?_insert rfl, if_neg (by decide)]
  exact Std.HashMap.getElem?_empty ..

/-- The back edge is cut at once. -/
theorem countdown_cut {bound : Int} (h : bound = 0 ∨ bound = 1) :
    Succeeds (visitSub .orig sevenGoal countdown) (counting.bounded .orig bound) fun _ _ => True := by
  rcases h with rfl | rfl
  all_goals
    refine .step rfl (.enter (Graph.ofSub_lap rfl rfl) countdown_vars ?_)
    refine .step rfl (.step rfl (.step rfl (.step rfl (.restoring ?_))))
    refine .settle rfl (precond?_empty rfl ..) (.step rfl (.step rfl ?_))
    refine .step rfl (.step rfl (.step rfl ?_))
    dsimp only [World.bounded, World.setEnv, World.env]
    exact .block (precond?_empty rfl ..) (.now rfl True.intro)

/-- A register that is counted down is not seven in the end. With two unrollings the precondition asks
that the loop is not left within two rounds, with one or none that it is not left in the first round. -/
theorem visitSub_bounds_countdown : ∃ F₂ F₁ F₀,
    Asks .orig countdown (counting.bounded .orig 2) sevenGoal F₂ ∧
    Asks .orig countdown (counting.bounded .orig 1) sevenGoal F₁ ∧
    Asks .orig countdown (counting.bounded .orig 0) sevenGoal F₀ ∧
    (∀ m, F₂.holds m = true → F₁.holds m = true) ∧ ∀ m, F₀.holds m = F₁.holds m := by
  have hasks {bound : Int} (h : Succeeds (visitSub .orig sevenGoal countdown) (counting.bounded .orig bound)
      fun _ _ => True) : ∃ F, Asks .orig countdown (counting.bounded .orig bound) sevenGoal F := by
    obtain ⟨pre, w', h, -⟩ := h
    have hstart : Start .orig (counting.bounded .orig bound) countdown sevenGoal seven :=
      .goal (.fresh rfl rfl rfl) rfl (Nat.zero_lt_one)
    obtain ⟨K, g, hg, he⟩ := visitSub_ok (.callFree countdown_closed (by decide))
      (hstart.ready hstart.ledger (C := fun _ => False) nofun) .refl rfl
      (fun hroot => absurd hroot hstart.root) (fun _ _ _ _ _ => True.intro) h
    obtain ⟨F, hF, -⟩ := (he.walked.ledger hstart.ledger).formula he.pre
    exact ⟨F, pre, w', h, hF⟩
  obtain ⟨F₂, h₂⟩ := hasks countdown_deeper
  obtain ⟨F₁, h₁⟩ := hasks (countdown_cut (.inr rfl))
  obtain ⟨F₀, h₀⟩ := hasks (countdown_cut (.inl rfl))
  have hverbatim : counting.Verbatim := fun side => by
    cases side <;> exact .of_blank rfl rfl rfl rfl
  have hK : Constr.Register (· = sevenGoal) counting.nodes := {
    children := by
      rintro _ _ rfl hd
      exact absurd hd List.not_mem_nil
    inj := by
      rintro _ _ rfl rfl _
      rfl
    lt := by
      rintro _ rfl
      exact Nat.zero_lt_one }
  obtain ⟨hmono, hequal⟩ := @visitSub_bounds .orig counting countdown sevenGoal _ hK rfl hverbatim rfl
    (.of_selfContained (by decide) nofun) (.fresh rfl)
  exact ⟨F₂, F₁, F₀, h₂, h₁, h₀, hmono 1 (Int.le_refl 1) _ _ h₂ h₁, hequal _ _ h₀ h₁⟩

end Walk

end Precond

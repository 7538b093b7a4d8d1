import Precond.Proofs.Walk.Levels
import Precond.Proofs.Walk.Steady
import Precond.Walk.Sub

/-! What the walk of a subroutine keeps, however it ends. The elements of a block leave the frame as it
is (`Walk.Keeps.visitElts`); a subroutine may change what its frame keeps. -/

namespace Precond.Walk

open IR Precond.Flow Relation

variable {S : Scope} {F G : Side → Frame → Frame → Prop} {x : Walk α} {w w₁ : World} {side : Side}

/-- The frame of one side changes as `F` tells, that of the other side stays. -/
def At (side : Side) (F : Frame → Frame → Prop) (side' : Side) : Frame → Frame → Prop :=
  if side' = side then F else Eq

instance (side side' : Side) (F : Frame → Frame → Prop) [IsPreorder Frame F] :
    IsPreorder Frame (At side F side') := by
  unfold At
  split
  · infer_instance
  · infer_instance

instance : IsPreorder Frame fun _ _ => True where
  refl _ := True.intro
  trans _ _ _ _ _ := True.intro

theorem at_self (side : Side) (F : Frame → Frame → Prop) : At side F side = F := if_pos rfl

theorem at_of_ne {side side' : Side} (h : side' ≠ side) (F : Frame → Frame → Prop) :
    At side F side' = Eq := if_neg h

/-- The world in which the body of a callee is walked. -/
def inside (w : World) (side : Side) (tid : String) : World :=
  w.setEnv side { w.env side with
    inlining := tid :: (w.env side).inlining, frame := (w.env side).frame.nested }

/-- The world after the body of a callee has been walked. -/
def outside (w : World) (side : Side) (w₁ : World) : World :=
  w₁.setEnv side { w₁.env side with
    inlining := (w₁.env side).inlining.drop 1, frame := (w.env side).frame }

/-- The body of a callee is walked in a frame of its own. -/
abbrev nesting (side : Side) (tid : String) (x : Walk α) : Walk α := do
  Walk.modifyEnv side fun e => { e with inlining := tid :: e.inlining }
  Walk.restoring side (fun e => { e with inlining := e.inlining.drop 1 }) (Walk.inFrame side x)

theorem nesting_eq (x : Walk α) (tid : String) (w : World) : nesting side tid x w =
    match x (inside w side tid) with
    | .ok a w₁ => .ok a (outside w side w₁)
    | .error f w₁ => .error f (outside w side w₁) := by
  have h : nesting side tid x w = Walk.restoring side (fun e => { e with
      inlining := e.inlining.drop 1 }) (Walk.restoring side (fun e => { e with
        frame := (w.env side).frame }) x) (inside w side tid) := by
    cases side <;> rfl
  rw [h, Walk.restoring, Walk.restoring]
  cases x (inside w side tid) with
  | ok a w₁ => cases side <;> rfl
  | error f w₁ => cases side <;> rfl

/-- What a call does that comes back where `after` holds. -/
abbrev called (expand : Expand) (side : Side) (after : Constr) (tid : String) (target : Label) :
    Walk Constr :=
  match target with
  | .indirect _ => do
    on side (Env.note .indirectCall tid target.toText)
    return after
  | .direct name => do
    let callee ← match (← Walk.env side).findSub? target with
      | some s => pure s
      | none => do
        on side (Env.note .unknownCallee tid name)
        pure (unknownCallee name)
    let h ← on side (Env.handler callee)
    match h.rule with
    | .inline _ => inlineCall expand side callee after tid
    | rule => summarize side rule h.callee after tid

/-- What a call does, once its callee is found. -/
abbrev dispatch (expand : Expand) (side : Side) (after : Constr) (tid : String) (callee : Sub) :
    Walk Constr := do
  let h ← on side (Env.handler callee)
  match h.rule with
  | .inline _ => inlineCall expand side callee after tid
  | rule => summarize side rule h.callee after tid

/-- What a jump makes of the preconditions where it leads and behind it. -/
abbrev branched (side : Side) (after post : Constr) (j : Jump) : Walk Constr := do
  if j.cond = Exp.always then return after
  else
    let (cond, hooks) ← translateChecked side j.cond
    let pre ← mkBranch j.tid (← cond.condition) after post
    guard (select hooks .assume .before ++ select hooks .assume .after)
      (select hooks .verify .before ++ select hooks .verify .after) pre

/-- The rule for a callee is one of the rules that may be chosen. -/
theorem handler_rule (hw : w.Under S) {c : Sub} {h : Handler}
    (hc : ∀ r, (S.policy side).chosen? c = some r → S.rule side c.tid r)
    (hh : on side (Env.handler c) w = .ok h w₁) : S.rule side c.tid h.rule := by
  obtain ⟨e, he, rfl⟩ := on_ok hh
  have hr := (Env.handler_ok he).1
  rw [Env.rule?] at hr
  split at hr
  · rename_i h' hl
    rw [← Option.some.inj hr]
    exact hw.handlers hl
  · refine hc _ ?_
    rw [← hw.policy side]
    exact hr

namespace Keeps

theorem ite {c : Prop} [Decidable c] {x y : Walk α} (hx : Keeps S F x) (hy : Keeps S F y) :
    Keeps S F (if c then x else y) := by
  split
  · exact hx
  · exact hy

theorem env {k : Env → Walk α} (h : ∀ e, e.policy = S.policy side → Keeps S F (k e)) :
    Keeps S F (Walk.env side >>= k) :=
  ⟨fun {w} hw => (h (w.env side) (hw.policy side)).kept hw⟩

/-- Of what an action gives something is known. -/
theorem bind_of [∀ side, IsPreorder Frame (F side)] {k : α → Walk β} {Q : α → Prop}
    (hx : Keeps S F x) (hq : ∀ w a w₁, w.Under S → x w = .ok a w₁ → Q a)
    (hk : ∀ a, Q a → Keeps S F (k a)) : Keeps S F (x >>= k) := by
  refine ⟨fun {w} hw => ?_⟩
  have h := hx.kept hw
  rw [ending] at h
  rw [ending_bind]
  cases hxw : x w with
  | error f w₁ =>
    rw [hxw] at h
    exact h
  | ok a w₁ =>
    rw [hxw] at h
    exact h.trans ((hk a (hq w a w₁ hw hxw)).kept (h.under hw))

theorem mono (h : Keeps S F x) (hF : ∀ side f f', F side f f' → G side f f') : Keeps S G x :=
  ⟨fun hw => (h.kept hw).mono hF⟩

section

variable [∀ side, IsPreorder Frame (F side)]

theorem pure (a : α) : Keeps S F (Pure.pure a) := ⟨fun _ => .refl _⟩

theorem throw (f : Fault) : Keeps S F (MonadExcept.throw f : Walk α) := ⟨fun _ => .refl _⟩

theorem mapM {xs : List β} {f : β → Walk α} (h : ∀ x, Keeps S F (f x)) : Keeps S F (xs.mapM f) := by
  induction xs with
  | nil => exact pure _
  | cons x xs ih =>
    rw [List.mapM_cons]
    exact (h x).bind fun _ => ih.bind fun _ => pure _

theorem ofExcept (x : Except Fault α) : Keeps S F (Walk.ofExcept x) := by
  cases x with
  | ok a => exact pure a
  | error f => exact throw f

theorem lift (x : Except Fault α) : Keeps S F (liftM x : Walk α) := ofExcept x

theorem present (o : Option α) : Keeps S F (Walk.present o) := by
  cases o with
  | some a => exact pure a
  | none => exact throw _

theorem newNode : Keeps S F Walk.newNode :=
  ⟨fun _ => ⟨Nat.le_succ _, fun side => by cases side <;> exact .refl _⟩⟩

theorem mkGoal (name : String) (value : Term .bool) (tid : Option String) :
    Keeps S F (Walk.mkGoal name value tid) := newNode.bind fun _ => pure _

theorem mkClause (hyps goals : List Constr) : Keeps S F (Walk.mkClause hyps goals) :=
  newNode.bind fun _ => pure _

theorem mkBranch (jump : String) (cond : Term .bool) (yes no : Constr) :
    Keeps S F (Walk.mkBranch jump cond yes no) := newNode.bind fun _ => pure _

theorem substitute (c : Constr) (olds news : List SomeTerm) :
    Keeps S F (Walk.substitute c olds news) :=
  ite (pure _) (ite (throw _) (newNode.bind fun _ => pure _))

theorem guard (assumes verifies : List Hook) (post : Constr) :
    Keeps S F (Walk.guard assumes verifies post) :=
  ite (pure _) ((mapM fun _ => mkGoal ..).bind fun _ => (mapM fun _ => mkGoal ..).bind fun _ =>
    mkClause ..)

end

theorem steady [∀ side, IsPreorder Frame (F side)] (h : Steady S x) : Keeps S F x :=
  h.toKeeps.mono fun side _ _ hf => hf ▸ refl_of (F side) _

theorem modifyEnv {f : Env → Env} [∀ side, IsPreorder Frame (F side)]
    (hf : ∀ e : Env, e.Kept (S.rule side) (F side) (f e)) : Keeps S F (Walk.modifyEnv side f) :=
  ⟨fun _ => .setEnv (hf _)⟩

/-! ### Calls -/

/-- What an action leaves where it is. -/
abbrev Rests (S : Scope) (x : Walk α) : Prop := Keeps S (fun _ => Eq) x

theorem replaceAll (c : Constr) (pairs : List (SomeTerm × SomeTerm)) :
    Rests S (Walk.replaceAll c pairs) := substitute ..

theorem summary (callee : Sub) (inputs outputs : List Var) (post : Constr) :
    Rests S (Walk.summary side callee inputs outputs post) :=
  summary_eq callee inputs outputs post ▸ (steady (.summaryPairs ..)).bind fun _ => replaceAll ..

theorem formula (text : String) (decls : Smt.Decls) : Rests S (Walk.formula text decls) := by
  unfold Walk.formula
  split
  · exact throw _
  · exact mkGoal ..
  · exact mkGoal ..

theorem contract (hS : S.draws) (callee : Sub) (name pre post : String) (after : Constr) :
    Rests S (Walk.contract side callee name pre post after) := by
  refine env fun e _ => (mapM fun r => (steady (.mkVar r)).bind fun _ => pure _).bind fun current => ?_
  refine (mapM fun r => (steady (.on (.fresh hS ..))).bind fun _ => pure _).bind fun chaos => ?_
  refine (formula ..).bind fun subPre => (formula ..).bind fun subPost => ?_
  refine (mapM fun r => present _).bind fun olds => (substitute ..).bind fun chaosed => ?_
  exact (steady (.returnEffects callee)).bind fun _ => (replaceAll ..).bind fun _ =>
    (mkClause ..).bind fun _ => mkClause ..

theorem summarize {rule : CallRule} (hr : S.draws ∨ rule.quiet) (callee : Sub) (post : Constr)
    (tid : String) : Rests S (Walk.summarize side rule callee post tid) := by
  refine env fun e _ => ?_
  cases rule with
  | verifierError => exact mkGoal ..
  | verifierAssume =>
    exact (steady .firstArg).bind fun _ => (lift _).bind fun _ => (mkGoal ..).bind fun _ =>
      mkClause ..
  | verifierNondet =>
    have hS := hr.resolve_right nofun
    dsimp only
    split
    · exact throw _
    · exact (steady (.on (.fresh hS ..))).bind fun _ => (steady (.mkVar _)).bind fun _ => substitute ..
  | empty => exact (steady (.on (.getCalled _))).bind fun _ => substitute ..
  | argTerms => exact summary ..
  | raxOut | chaosRax =>
    dsimp only
    split
    · exact throw _
    · exact env fun _ _ => summary ..
  | chaosCallerSaved => exact env fun _ _ => summary ..
  | contract => exact contract (hr.resolve_right nofun) ..
  | default => exact (steady (.returnEffects callee)).bind fun _ => replaceAll ..
  | inline => exact (steady (.returnEffects callee)).bind fun _ => replaceAll ..

/-! ### Blocks -/

/-- What an assignment does with its value and the variable's term. -/
theorem replaced {p : Prop} [Decidable p] (f : Fault) (hooks : List Hook) (post : Constr)
    (old value : SomeTerm) : Rests S (if p then MonadExcept.throw f else do
      let post ← Walk.guard (select hooks .assume .after) (select hooks .verify .after) post
      let post ← Walk.substitute post [old] [value]
      Walk.guard (select hooks .assume .before) (select hooks .verify .before) post) :=
  ite (throw _) ((guard ..).bind fun _ => (substitute ..).bind fun _ => guard ..)

theorem assign {s : Sub} (hs : S.body side s) {rhs : Exp} (he : S.draws ∨ rhs.known) (post : Constr) (lhs : Var) :
    Rests S (Walk.assign side post lhs rhs) :=
  (steady (.translateChecked hs he)).bind fun _ => (steady (.mkVar lhs)).bind fun _ => replaced ..

theorem note (kind : WeakeningKind) (tid detail : String) :
    Rests S (Walk.on side (Env.note kind tid detail)) := steady (.on (.note ..))

theorem phi_known {p : Phi} (hp : S.draws ∨ (Elt.phi p).known) :
    (S.draws ∨ p.first.known) ∧ ∀ pred e, p.along? pred = some e → S.draws ∨ e.known := by
  have hall {x : String × Exp} (hx : x ∈ p.values) : S.draws ∨ x.2.known :=
    hp.imp_right fun h => List.all_eq_true.mp h x hx
  refine ⟨hall (List.head_mem _), fun pred e he => ?_⟩
  exact hall (List.mem_reverse.mp (Table.mem_of_lookup he))

theorem visitPhi {s : Sub} (hs : S.body side s) {p : Phi} (hp : S.draws ∨ (Elt.phi p).known) (post : Constr) :
    Rests S (Walk.visitPhi side post p) := by
  refine env fun e _ => ?_
  split
  · rename_i value hv
    obtain ⟨pred, -, hpred⟩ := Option.bind_eq_some_iff.mp hv
    exact assign hs ((phi_known hp).2 _ _ hpred) ..
  · exact (note ..).bind fun _ => assign hs (phi_known hp).1 ..

theorem targetPre (l : Label) (default : Constr) : Rests S (Walk.targetPre side l default) := by
  cases l with
  | direct => exact env fun _ _ => pure _
  | indirect => exact pure _

theorem returnPre (post : Constr) : Rests S (Walk.returnPre side post) := env fun _ _ => pure _

theorem nesting (h : Keeps S (At side fun _ _ => True) x) (tid : String) :
    Rests S (Walk.nesting side tid x) := by
  refine ⟨fun {w} hw => ?_⟩
  have hw₀ : (inside w side tid).Under S := hw.setEnv rfl rfl
  have hend : ending (Walk.nesting side tid x) w = outside w side (ending x (inside w side tid)) := by
    rw [ending, ending, nesting_eq]
    cases x (inside w side tid) <;> rfl
  rw [hend]
  have hk := h.kept hw₀
  refine ⟨?_, fun side' => ?_⟩
  · have hn := hk.nodes
    rw [inside, World.nodes_setEnv] at hn
    rw [outside, World.nodes_setEnv]
    exact hn
  have he := hk.env side'
  by_cases hs : side' = side
  · subst hs
    rw [inside, World.env_setEnv] at he
    rw [outside, World.env_setEnv]
    exact he.around rfl rfl rfl rfl (congrArg (List.drop 1) he.inlining) rfl
  · rw [at_of_ne hs, inside, World.env_setEnv_of_ne _ _ _ hs] at he
    rw [outside, World.env_setEnv_of_ne _ _ _ hs]
    exact he

theorem forceJump {j : Jump} (hj : S.draws ∨ j.cond.known) (post : Constr) (target : String)
    (taken : Bool) : Rests S (Walk.forceJump side post j target taken) :=
  (steady (.condition hj)).bind fun _ => ite
    ((targetPre ..).bind fun _ => (mkGoal ..).bind fun _ => mkClause ..)
    ((mkGoal ..).bind fun _ => mkClause ..)

theorem branched {s : Sub} (hs : S.body side s) {j : Jump} (hj : S.draws ∨ j.cond.known) (after post : Constr) :
    Rests S (Walk.branched side after post j) :=
  ite (pure _) ((steady (.translateChecked hs hj)).bind fun _ => (lift _).bind fun _ =>
    (mkBranch ..).bind fun _ => guard ..)

/-- What expands the bodies of callees may change no frame but its own. -/
def Expands (S : Scope) (side : Side) (expand : Expand) : Prop :=
  ∀ post c, S.body side c → Keeps S (At side fun _ _ => True) (expand side post c)

section

variable {expand : Expand} {s : Sub} {b : Blk} {j : Jump} (hx : Expands S side expand)
  (hs : S.body side s) (hb : b ∈ s.blks) (hj : .jump j ∈ b.elts)

include hx hs hb hj

theorem inlineCall {name : String} {ret : Option Label} {tids : List String}
    (hk : j.kind = .call (.direct name) ret)
    (hr : S.rule side ((S.policy side).callee name).tid (.inline tids)) (after : Constr) (tid : String) :
    Rests S (Walk.inlineCall expand side ((S.policy side).callee name) after tid) := by
  unfold Walk.inlineCall
  split
  · exact (note ..).bind fun _ => pure _
  rename_i hblks
  obtain ⟨hbody, hfallback⟩ := S.expanded hs hb hj hk hr fun h => hblks (by rw [h]; rfl)
  refine env fun e he => ite ((note ..).bind fun _ => env fun e he => ?_) ?_
  · split
    · rename_i r hr
      refine summarize (hfallback r ?_) ..
      rw [← he]
      exact hr
    · exact throw _
  · exact nesting (hx after _ hbody) _

theorem handled {name : String} {ret : Option Label} (hk : j.kind = .call (.direct name) ret)
    (after : Constr) (tid : String) :
    Rests S (dispatch expand side after tid ((S.policy side).callee name)) := by
  refine bind_of (steady (.on (.handler fun r => S.chosen hs hb hj hk)))
    (fun w h w₁ hw hh => handler_rule hw (fun r => S.chosen hs hb hj hk) hh) fun h hr => ?_
  split
  · rename_i tids hrule
    exact inlineCall hx hs hb hj hk (hrule ▸ hr) after tid
  · exact summarize (S.quiet hs hb hj hk hr) ..

theorem called {target : Label} {ret : Option Label} (hk : j.kind = .call target ret)
    (after : Constr) (tid : String) : Rests S (Walk.called expand side after tid target) := by
  cases target with
  | indirect => exact (note ..).bind fun _ => pure _
  | direct name =>
    refine env fun e he => ?_
    have hfind : (S.policy side).findSub? (.direct name) = e.findSub? (.direct name) := by
      rw [← he]
      rfl
    have hcalled := handled hx hs hb hj hk after tid
    rw [Env.callee, hfind] at hcalled
    cases hsub : e.findSub? (.direct name) with
    | some s =>
      rw [hsub] at hcalled
      exact hcalled
    | none =>
      rw [hsub] at hcalled
      exact (note ..).bind fun _ => hcalled

theorem visitCall {target : Label} {ret : Option Label} (hk : j.kind = .call target ret)
    (post : Constr) (tid : String) : Rests S (Walk.visitCall expand side post tid target ret) := by
  cases ret with
  | none => exact (returnPre post).bind fun after => called hx hs hb hj hk after tid
  | some l => exact (targetPre l post).bind fun after => called hx hs hb hj hk after tid

theorem jumpPre (post : Constr) : Rests S (Walk.jumpPre expand side post j) := by
  unfold Walk.jumpPre
  split
  · exact (note ..).bind fun _ => pure _
  · exact targetPre ..
  · rename_i target ret hk
    exact visitCall hx hs hb hj hk post j.tid
  · exact returnPre ..
  · exact targetPre ..

theorem visitJump (post : Constr) : Rests S (Walk.visitJump expand side post j) := by
  have hknown : S.draws ∨ j.cond.known := S.elts hs hb hj
  refine env fun e _ => ?_
  split
  · exact forceJump hknown ..
  · exact (jumpPre hx hs hb hj post).bind fun after => branched hs hknown ..

end

variable {expand : Expand} {s : Sub} {b : Blk} (hx : Expands S side expand)
  (hs : S.body side s) (hb : b ∈ s.blks)

include hx hs hb

theorem visitElt {e : Elt} (he : e ∈ b.elts) (post : Constr) :
    Rests S (Walk.visitElt expand side post e) := by
  cases e with
  | define d => exact assign hs (S.elts hs hb he) ..
  | phi p => exact visitPhi hs (S.elts hs hb he) _
  | jump j => exact visitJump hx hs hb he post

theorem visitElts {es : List Elt} (hes : ∀ e ∈ es, e ∈ b.elts) (post : Constr) :
    Rests S (Walk.visitElts expand side post es) := by
  induction es with
  | nil => exact pure _
  | cons e es ih =>
    exact (ih fun e' he' => hes e' (List.mem_cons_of_mem e he')).bind fun pre =>
      visitElt hx hs hb (hes e List.mem_cons_self) pre

end Keeps

/-! ### Copies of blocks -/

/-- Copies that `B` allows are settled in a frame. -/
structure Filled (B : Copy → Prop) (f f' : Frame) : Prop extends Adds B f f' where
  retPost : f'.retPost = f.retPost
  root : f'.root = f.root

instance (B : Copy → Prop) : IsPreorder Frame (Filled B) where
  refl f := ⟨refl_of (Adds B) f, rfl, rfl⟩
  trans _ _ _ h₁ h₂ := ⟨trans_of (Adds B) h₁.toAdds h₂.toAdds, h₂.retPost.trans h₁.retPost,
    h₂.root.trans h₁.root⟩

/-- An action in the graph of a subroutine settles only copies that `B` allows. -/
structure Fills (S : Scope) (side : Side) (g : Graph) (B : Copy → Prop) (x : Walk α) : Prop where
  kept {w : World} : w.Under S → (w.env side).frame.graph = some g →
    w.Kept S.rule (At side (Filled B)) (ending x w)

variable {g : Graph} {B : Copy → Prop}

theorem graph_of_kept (h : w.Kept S.rule (At side (Filled B)) w₁) :
    (w₁.env side).frame.graph = (w.env side).frame.graph := by
  have hf := (h.env side).frame
  rw [at_self] at hf
  exact hf.graph

theorem block_mem {s : Sub} {b : Blk} (hg : Graph.ofSub s = .ok g)
    {t : String} (hb : g.blocks.lookup t = some b) : b ∈ s.blks ∧ b.tid = t := by
  have hof := Graph.of_ofSub hg
  refine ⟨?_, hof.tid_of_lookup hb⟩
  rw [hof.blocks] at hb
  obtain ⟨⟨b, n⟩, hp, rfl⟩ := Option.map_eq_some_iff.mp hb
  exact (Sub.mem_of_at? hp).1

/-- The place at which the elements of a block are visited. -/
def entered (w : World) (side : Side) (b : Blk) : World :=
  w.setEnv side { w.env side with frame := { (w.env side).frame with block := some b.tid } }

/-- The place at which a copy of a block is visited. -/
def placedAt (w : World) (side : Side) (g : Graph) (targets : Table String Constr) (t : String)
    (u : Unroll) : World :=
  w.setEnv side { w.env side with
    frame := { (w.env side).frame with targets, pred := g.predFor t u, unroll := u } }

theorem visitBlock_eq (expand : Expand) (side : Side) (post : Constr) (b : Blk) (w : World) :
    visitBlock expand side post b w =
      match (w.env side).precond? b.tid (w.env side).frame.unroll with
      | some c => .ok c w
      | none =>
        match visitElts expand side post b.elts (entered w side b) with
        | .ok pre w₁ => .ok pre
            (w₁.setEnv side ((w₁.env side).addPrecond b.tid (w₁.env side).frame.unroll pre))
        | .error f w₁ => .error f w₁ := by
  unfold visitBlock
  show (match (w.env side).precond? b.tid (w.env side).frame.unroll with
    | some c => pure c
    | none => do
      modifyEnv side fun e => { e with frame := { e.frame with block := some b.tid } }
      let pre ← visitElts expand side post b.elts
      modifyEnv side fun e => e.addPrecond b.tid e.frame.unroll pre
      return pre : Walk Constr) w = _
  cases (w.env side).precond? b.tid (w.env side).frame.unroll with
  | some c => rfl
  | none =>
    show EStateM.bind (visitElts expand side post b.elts) _ (entered w side b) = _
    rw [EStateM.bind]
    cases visitElts expand side post b.elts (entered w side b) <;> rfl

namespace Fills

theorem of_ok (h : Fills S side g B x) (hw : w.Under S) (hg : (w.env side).frame.graph = some g)
    {a : α} (ha : x w = .ok a w₁) : w.Kept S.rule (At side (Filled B)) w₁ :=
  ending_of_ok ha ▸ h.kept hw hg

theorem rests (h : Keeps.Rests S x) : Fills S side g B x :=
  ⟨fun hw _ => (h.kept hw).mono fun side' _ _ hf => hf ▸ refl_of (At side (Filled B) side') _⟩

theorem bind {k : α → Walk β} (hx : Fills S side g B x) (hk : ∀ a, Fills S side g B (k a)) :
    Fills S side g B (x >>= k) := by
  refine ⟨fun {w} hw hg => ?_⟩
  have h := hx.kept hw hg
  rw [ending] at h
  rw [ending_bind]
  cases hxw : x w with
  | error f w₁ =>
    rw [hxw] at h
    exact h
  | ok a w₁ =>
    rw [hxw] at h
    exact h.trans ((hk a).kept (h.under hw) ((graph_of_kept h).trans hg))

theorem mono {B' : Copy → Prop} (h : Fills S side g B x) (hB : ∀ c, B c → B' c) :
    Fills S side g B' x := by
  refine ⟨fun hw hg => (h.kept hw hg).mono fun side' f f' hf => ?_⟩
  unfold At at hf ⊢
  split
  · rename_i hs
    rw [if_pos hs] at hf
    exact { hf with toAdds := hf.toAdds.mono hB }
  · rename_i hs
    rwa [if_neg hs] at hf

theorem ite {c : Prop} [Decidable c] {x y : Walk α} (hx : Fills S side g B x)
    (hy : Fills S side g B y) : Fills S side g B (if c then x else y) := by
  split
  · exact hx
  · exact hy

variable {settle : Settle} {post : Constr} {u : Unroll} {t : String}

theorem settleForward {succs : List String}
    (h : ∀ s ∈ succs, Fills S side g B (settle side post s (g.restrict u s))) :
    Fills S side g B (Walk.settleForward settle side g post u succs) := by
  induction succs with
  | nil => exact rests (.pure _)
  | cons s succs ih =>
    exact (h s List.mem_cons_self).bind fun _ => ih fun s' hs => h s' (List.mem_cons_of_mem s hs)

theorem loopPre {header : String}
    (h : Fills S side g B (settle side post header (u.withCount header (u.count header + 1)))) :
    Fills S side g B (Walk.loopPre settle side post header u) := by
  refine ⟨fun {w} hw hg => ?_⟩
  have hcut : Fills S side g B (do
      on side (Env.note .loopBound header ("back-edge cut after " ++
        toString (w.env side).unrollBound ++ " unrolling(s)"))
      trivial) := (rests (.note ..)).bind fun _ => rests (.mkGoal ..)
  exact (ite hcut h).kept hw hg

theorem successorPres {succs : List String}
    (h : ∀ s ∈ succs, g.isBackEdge t s →
      Fills S side g B (settle side post s (u.withCount s (u.count s + 1)))) :
    Fills S side g B (Walk.successorPres settle side g post t u succs) := by
  induction succs with
  | nil => exact rests (.pure _)
  | cons s succs ih =>
    have hrest := ih fun s' hs => h s' (List.mem_cons_of_mem s hs)
    rw [Walk.successorPres]
    split
    · rename_i hback
      exact (loopPre (h s List.mem_cons_self hback)).bind fun _ => hrest.bind fun _ => rests (.pure _)
    · have hpre : Fills S side g B (do present ((← env side).precond? s (g.restrict u s))) :=
        rests (.env fun _ _ => .present _)
      exact hpre.bind fun _ => hrest.bind fun _ => rests (.pure _)

theorem trailing (targets : Table String Constr) (t : String) :
    Keeps.Rests S (Walk.trailing side g targets t) := by
  unfold Walk.trailing
  split
  · exact .present _
  · exact .env fun _ _ => .present _

/-- A walk at another place in the frame. -/
theorem placed {f : Frame} (hp : f.preconds = (w.env side).frame.preconds)
    (hgr : f.graph = (w.env side).frame.graph) (hr : f.retPost = (w.env side).frame.retPost)
    (hro : f.root = (w.env side).frame.root) :
    w.Kept S.rule (At side (Filled B)) (w.setEnv side { w.env side with frame := f }) := by
  refine .setEnv (.of_core rfl rfl rfl ?_)
  rw [at_self]
  exact ⟨⟨hgr, fun h => hp ▸ h, fun h => .inl (hp ▸ h)⟩, hr, hro⟩

/-- A copy without a precondition gets one. -/
theorem added {b : String} {pre : Constr} (h : (w.env side).precond? b u = none)
    (hB : B (b, u.count)) : w.Kept S.rule (At side (Filled B))
      (w.setEnv side ((w.env side).addPrecond b u pre)) := by
  refine .setEnv (.of_core rfl rfl rfl ?_)
  rw [at_self]
  refine ⟨⟨rfl, fun {c k} hk => ?_, fun {c k} hk => ?_⟩, rfl, rfl⟩
  · dsimp only [Env.addPrecond]
    rw [Std.HashMap.getElem?_insert, if_neg fun hkey => ?_]
    · exact hk
    · rw [← eq_of_beq hkey, show (w.env side).frame.preconds[(b, u)]? = none from h] at hk
      cases hk
  · dsimp only [Env.addPrecond] at hk
    rw [Std.HashMap.getElem?_insert] at hk
    split at hk
    · rename_i hkey
      rw [← eq_of_beq hkey]
      exact .inr hB
    · exact .inl hk

/-- A block is settled for the copy that the walk is at. -/
theorem visitBlock {expand : Expand} {s : Sub} {b : Blk} (hx : Keeps.Expands S side expand)
    (hs : S.body side s) (hb : b ∈ s.blks) (post : Constr)
    (hu : (w.env side).frame.unroll = u) (hB : B (b.tid, u.count)) (hw : w.Under S) :
    w.Kept S.rule (At side (Filled B)) (ending (Walk.visitBlock expand side post b) w) := by
  rw [ending, visitBlock_eq]
  cases hpre : (w.env side).precond? b.tid (w.env side).frame.unroll with
  | some c => exact .refl w
  | none =>
  set w₁ := entered w side b with hw₁
  have h₁ : w.Kept S.rule (At side (Filled B)) w₁ := placed rfl rfl rfl rfl
  have helts := (Keeps.visitElts hx hs hb (fun _ he => he) post).kept (h₁.under hw)
  have h₂ : w.Kept S.rule (At side (Filled B)) (ending (Walk.visitElts expand side post b.elts) w₁) :=
    h₁.trans (helts.mono fun side' _ _ hf => hf ▸ refl_of (At side (Filled B) side') _)
  rw [ending] at h₂ helts
  cases hrun : Walk.visitElts expand side post b.elts w₁ with
  | error f w₂ =>
    rw [hrun] at h₂
    exact h₂
  | ok pre w₂ =>
    rw [hrun] at h₂ helts
    have hf : (w₁.env side).frame = (w₂.env side).frame := (helts.env side).frame
    rw [hw₁, entered, World.env_setEnv] at hf
    have hu₂ : (w₂.env side).frame.unroll = u := hf ▸ hu
    dsimp only
    rw [hu₂]
    refine h₂.trans (added ?_ hB)
    rw [Env.precond?, ← hf]
    exact hu ▸ hpre

theorem settleBlock {expand : Expand} {s : Sub} (hx : Keeps.Expands S side expand)
    (hs : S.body side s) (hg : Graph.ofSub s = .ok g)
    (hB : ∀ b, g.blocks.lookup t = some b → B (t, u.count))
    (h : ∀ s ∈ g.succsOf t, g.isBackEdge t s →
      Fills S side g B (settle side post s (u.withCount s (u.count s + 1)))) :
    Fills S side g B (Walk.settleBlock settle expand side g post t u) := by
  refine (successorPres h).bind fun targets => (rests (trailing targets t)).bind fun after =>
    ⟨fun {w} hw hgraph => ?_⟩
  rw [ending_bind]
  cases hb : g.blocks.lookup t with
  | none => exact .refl w
  | some b =>
    obtain ⟨hmem, htid⟩ := block_mem hg hb
    have hplace : w.Kept S.rule (At side (Filled B)) (placedAt w side g targets t u) :=
      placed rfl rfl rfl rfl
    refine hplace.trans (visitBlock hx hs hmem after ?_ (htid ▸ hB b hb) (hplace.under hw))
    rw [placedAt, World.env_setEnv]

end Fills

/-- All variables of a subroutine are bound. -/
abbrev bindVars (side : Side) (s : Sub) : Walk PUnit :=
  forIn (sortByName s.vars) PUnit.unit fun v _ => do
    let _ ← on side (Env.mkVar v)
    pure (ForInStep.yield PUnit.unit)

/-- Nothing happens where all variables are bound already. -/
theorem bindVars_eq {s : Sub} (h : ∀ v ∈ s.vars, ∃ t, (w.env side).vars.lookup v = some t) :
    bindVars side s w = .ok PUnit.unit w := by
  have hall : ∀ v ∈ sortByName s.vars, ∃ t, (w.env side).vars.lookup v = some t :=
    fun v hv => h v (List.mem_mergeSort.mp hv)
  unfold bindVars
  revert hall
  induction sortByName s.vars with
  | nil => exact fun _ => rfl
  | cons v vs ih =>
    intro hall
    obtain ⟨t, ht⟩ := hall v List.mem_cons_self
    have hon : on side (Env.mkVar v) w = .ok t w := by
      rw [on, Env.mkVar_of_lookup ht]
      cases side <;> rfl
    rw [List.forIn_cons, bind_assoc, bind_of_ok hon]
    exact ih fun v hv => hall v (List.mem_cons_of_mem _ hv)

theorem Steady.bindVars (s : Sub) : Steady S (Walk.bindVars side s) := by
  unfold Walk.bindVars
  induction sortByName s.vars with
  | nil => exact .pure _
  | cons v vs ih =>
    simp only [List.forIn_cons, bind_assoc, pure_bind]
    exact (Steady.mkVar v).bind fun _ => ih

/-- The world in which the copies of the blocks of a subroutine are settled. -/
def opened (w : World) (side : Side) (s : Sub) (post : Constr) (g : Graph) : World :=
  w.setEnv side { w.env side with frame := { (w.env side).frame with
    preconds := if (w.env side).frame.root = some (s.tid, post.id) then (w.env side).frame.preconds else {}
    root := some (s.tid, post.id)
    graph := some g
    retPost := some post } }

/-- The world after the copies have been settled. -/
def closed (w : World) (side : Side) (w₁ : World) : World :=
  w₁.setEnv side { w₁.env side with frame := { (w₁.env side).frame with
    graph := (w.env side).frame.graph, retPost := (w.env side).frame.retPost } }

/-- The copies of the blocks of a subroutine are settled. -/
abbrev opening (settle : Settle) (side : Side) (post : Constr) (s : Sub) (g : Graph) :
    Walk Constr := do
  let before := (← env side).frame
  let root := some (s.tid, post.id)
  let kept := if before.root = root then before.preconds else {}
  modifyEnv side fun e =>
    { e with frame := { e.frame with
        preconds := kept, root, graph := some g, retPost := some post } }
  restoring side
    (fun e => { e with frame := { e.frame with graph := before.graph, retPost := before.retPost } })
    (settle side post g.entry [])

theorem opening_eq (settle : Settle) (side : Side) (post : Constr) (s : Sub) (g : Graph) (w : World) :
    opening settle side post s g w =
      match settle side post g.entry [] (opened w side s post g) with
      | .ok c w₁ => .ok c (closed w side w₁)
      | .error f w₁ => .error f (closed w side w₁) := by
  show restoring side (fun e => { e with frame := { e.frame with
    graph := (w.env side).frame.graph, retPost := (w.env side).frame.retPost } })
    (settle side post g.entry []) (opened w side s post g) = _
  rw [restoring]
  cases settle side post g.entry [] (opened w side s post g) <;> rfl

theorem enterSub_eq (settle : Settle) (side : Side) (post : Constr) (s : Sub) :
    enterSub settle side post s = (do
      modifyEnv side fun e => { e with attached := true }
      let g ← Graph.ofSub s
      bindVars side s
      opening settle side post s g) := rfl

/-- The world in which a walk has been attached. -/
def attached (w : World) (side : Side) : World :=
  w.setEnv side { w.env side with attached := true }

theorem enterSub_of_ok (settle : Settle) (post : Constr) {s : Sub} (hg : Graph.ofSub s = .ok g)
    {a : PUnit} (hb : bindVars side s (attached w side) = .ok a w₁) :
    enterSub settle side post s w = opening settle side post s g w₁ := by
  rw [enterSub_eq, hg]
  exact bind_of_ok hb

theorem enterSub_inv {settle : Settle} {post c : Constr} {s : Sub}
    (h : enterSub settle side post s w = .ok c w₁) :
    ∃ g a w₂ w₃, Graph.ofSub s = .ok g ∧ bindVars side s (attached w side) = .ok a w₂ ∧
      settle side post g.entry [] (opened w₂ side s post g) = .ok c w₃ ∧ w₁ = closed w₂ side w₃ := by
  rw [enterSub_eq] at h
  obtain ⟨_, w₂, hw₂, h⟩ := bind_ok h
  cases hw₂
  cases hg : Graph.ofSub s with
  | error f =>
    rw [hg] at h
    cases h
  | ok g =>
  rw [hg] at h
  obtain ⟨a, w₃, hb, h⟩ := bind_ok (x := bindVars side s) h
  rw [opening_eq] at h
  refine ⟨g, a, w₃, ?_⟩
  cases hrun : settle side post g.entry [] (opened w₃ side s post g) with
  | error f w₄ =>
    rw [hrun] at h
    cases h
  | ok c w₄ =>
    rw [hrun] at h
    cases h
    exact ⟨w₄, rfl, hb, rfl, rfl⟩

/-- A walk of a subroutine fails before the frame is opened, or in it. -/
theorem enterSub_error {settle : Settle} {post : Constr} {s : Sub} {f : Fault} (hw : w.Under S)
    (h : enterSub settle side post s w = .error f w₁) : w.Kept S.rule (fun _ => Eq) w₁ ∨
      ∃ g a w₂ w₃, Graph.ofSub s = .ok g ∧ bindVars side s (attached w side) = .ok a w₂ ∧
        settle side post g.entry [] (opened w₂ side s post g) = .error f w₃ ∧ w₁ = closed w₂ side w₃ := by
  have hattached : w.Kept S.rule (fun _ => Eq) (attached w side) := .setEnv (.of_core rfl rfl rfl rfl)
  rw [enterSub_eq] at h
  rcases bind_error h with h | ⟨_, w₂, hw₂, h⟩
  · cases h
  cases hw₂
  cases hg : Graph.ofSub s with
  | error f' =>
    rw [hg] at h
    cases h
    exact .inl hattached
  | ok g =>
  rw [hg] at h
  rcases bind_error (x := bindVars side s) h with h | ⟨a, w₃, hb, h⟩
  · exact .inl (hattached.trans ((Steady.bindVars s).toKeeps.of_error (hattached.under hw) h))
  rw [opening_eq] at h
  cases hrun : settle side post g.entry [] (opened w₃ side s post g) with
  | ok c w₄ =>
    rw [hrun] at h
    cases h
  | error f' w₄ =>
    rw [hrun] at h
    cases h
    exact .inr ⟨g, a, w₃, w₄, rfl, hb, hrun, rfl⟩

/-- The walk of a subroutine keeps all but its frame, which changes as its opening and the settling of
copies do. -/
theorem Keeps.enterSub_of {F : Frame → Frame → Prop} [IsPreorder Frame F] {settle : Settle}
    {post : Constr} {s : Sub}
    (hplace : ∀ f f' : Frame, f'.preconds = f.preconds ∨ f'.preconds = {} → F f f')
    (h : ∀ g, Graph.ofSub s = .ok g → ∃ B, Fills S side g B (settle side post g.entry []) ∧
      ∀ f f', Filled B f f' → F f f') :
    Keeps S (At side F) (Walk.enterSub settle side post s) := by
  have hmoved {e : Env} {f : Frame} {attached : Bool}
      (hf : f.preconds = e.frame.preconds ∨ f.preconds = {}) :
      e.Kept (S.rule side) (At side F side) { e with frame := f, attached } := by
    rw [at_self]
    exact .of_core rfl rfl rfl (hplace _ _ hf)
  rw [enterSub_eq]
  refine (modifyEnv fun e => hmoved (.inl rfl)).bind fun _ => ?_
  cases hg : Graph.ofSub s with
  | error f => exact throw f
  | ok g =>
  obtain ⟨B, hB, hF⟩ := h g hg
  refine (steady (.bindVars s)).bind fun _ => ⟨fun {w} hw => ?_⟩
  have hopened : w.Kept S.rule (At side F) (opened w side s post g) := by
    refine .setEnv (hmoved ?_)
    dsimp only
    split
    · exact .inl rfl
    · exact .inr rfl
  have hend : ending (opening settle side post s g) w =
      closed w side (ending (settle side post g.entry []) (opened w side s post g)) := by
    rw [ending, ending, opening_eq]
    cases settle side post g.entry [] (opened w side s post g) <;> rfl
  have hsettle := hB.kept (hopened.under hw) (by rw [opened, World.env_setEnv])
  rw [hend]
  refine hopened.trans ((hsettle.mono fun side' f f' hf => ?_).trans (.setEnv (hmoved (.inl rfl))))
  unfold At at hf ⊢
  split
  · rename_i hs
    rw [if_pos hs] at hf
    exact hF f f' hf
  · rename_i hne
    rwa [if_neg hne] at hf

/-- The walk of a subroutine keeps all but its frame. -/
theorem Keeps.enterSub {settle : Settle} {post : Constr} {s : Sub}
    (h : ∀ g, Graph.ofSub s = .ok g → ∃ B, Fills S side g B (settle side post g.entry [])) :
    Keeps S (At side fun _ _ => True) (Walk.enterSub settle side post s) :=
  .enterSub_of (fun _ _ _ => True.intro) fun g hg =>
    let ⟨B, hB⟩ := h g hg
    ⟨B, hB, fun _ _ _ => True.intro⟩

/-- Settling a copy settles copies of blocks that it leads to. -/
theorem settleNode_fills_blocks (n : Nat) {s : Sub} (hs : S.body side s) (hg : Graph.ofSub s = .ok g)
    (post : Constr) (t : String) (u : Unroll) :
    Fills S side g (fun c => ReflTransGen g.Leads (g.copy u t) c ∧ ∃ b ∈ s.blks, b.tid = c.1)
      (settleNode n side post t u) := by
  induction n generalizing s g post t u with
  | zero => exact .rests (.throw _)
  | succ n ih =>
    have hx : Keeps.Expands S side (enterSub (settleNode n)) := fun post c hc =>
      .enterSub fun g' hg' => ⟨_, ih hc hg' post _ _⟩
    have hforward : ∀ s' ∈ g.forward t,
        Fills S side g (fun c => ReflTransGen g.Leads (g.copy u t) c ∧ ∃ b ∈ s.blks, b.tid = c.1)
          (settleNode n side post s' (g.restrict (g.restrict u t) s')) := fun s' hs' =>
      (ih hs hg post s' _).mono fun c hc => ⟨.head (Graph.Leads.forward hs') hc.1, hc.2⟩
    have hback : ∀ s' ∈ g.succsOf t, g.isBackEdge t s' →
        Fills S side g (fun c => ReflTransGen g.Leads (g.copy u t) c ∧ ∃ b ∈ s.blks, b.tid = c.1)
          (settleNode n side post s' ((g.restrict u t).withCount s' ((g.restrict u t).count s' + 1))) :=
      fun s' hs' hb => (ih hs hg post s' _).mono fun c hc => ⟨.head (Graph.Leads.back hs' hb) hc.1, hc.2⟩
    refine ⟨fun {w} hw hgraph => ?_⟩
    rw [ending, settleNode_succ hgraph, ← ending]
    cases (w.env side).precond? t (g.restrict u t) with
    | some c => exact .refl w
    | none =>
      refine ((Fills.settleForward hforward).bind fun _ => ?_).kept hw hgraph
      exact Fills.settleBlock hx hs hg (fun b hb => ⟨.refl, b, block_mem hg hb⟩) hback

/-- Settling a copy settles copies that it leads to. -/
theorem settleNode_fills (n : Nat) {s : Sub} (hs : S.body side s) (hg : Graph.ofSub s = .ok g)
    (post : Constr) (t : String) (u : Unroll) :
    Fills S side g (ReflTransGen g.Leads (g.copy u t)) (settleNode n side post t u) :=
  (settleNode_fills_blocks n hs hg post t u).mono fun _ hc => hc.1

end Precond.Walk

import Precond.Proofs.Constraint.Given
import Precond.Proofs.Exact.Lanes

/-! A constraint that asks for less (`Constr.Entails`). The elements of a block are monotone: where what
holds behind them is entailed, so is what they ask for, whatever terms the two walks have come by
(`Lanes.Both.visitElts`). -/

namespace Precond

open IR Precond.Flow Walk

/-! ### Constraints -/

/-- Replacements of one constant, which are the same if they are of one sort. -/
structure Exchange (p q : SomeTerm × SomeTerm) : Prop where
  old : q.1 = p.1
  const : p.1.IsConst
  new : p.2.1 = p.1.1 → q.2.1 = q.1.1 → q.2 = p.2

theorem Exchange.refl {p : SomeTerm × SomeTerm} (h : p.1.IsConst) : Exchange p p := ⟨rfl, h, fun _ _ => rfl⟩

namespace Constr

/-- Where both constraints have formulas, that of the first one implies that of the second one. -/
def Entails (c d : Constr) : Prop := c.Formal → d.Formal → ∀ m, c.truth m = true → d.truth m = true

namespace Entails

variable {i j low : Nat} {c d yes yes' no no' : Constr} {hyps hyps' goals goals' : List Constr}
  {pairs pairs' : List (SomeTerm × SomeTerm)}

theorem refl (c : Constr) : c.Entails c := fun _ _ _ h => h

theorem nothing (c : Constr) : c.Entails (.goal i "true" (.truth true) none) := fun _ _ _ _ => rfl

theorem of_copied (h : Copied low c d) : c.Entails d := by
  cases h with
  | goal => exact fun _ _ _ h => h

theorem all_copied (h : List.Forall₂ (Copied low) hyps hyps') (m : Model) :
    (hyps'.all fun c => c.truth m) = hyps.all fun c => c.truth m := by
  induction h with
  | nil => rfl
  | cons hc _ ih =>
    cases hc with
    | goal => rw [List.all_cons, List.all_cons, ih, truth_goal, truth_goal]

theorem all (h : List.Forall₂ Entails goals goals') (hf : ∀ c ∈ goals, c.Formal) (hf' : ∀ d ∈ goals', d.Formal)
    {m : Model} (hm : (goals.all fun c => c.truth m) = true) : (goals'.all fun c => c.truth m) = true := by
  induction h with
  | nil => rfl
  | @cons c d goals goals' hcd _ ih =>
    rw [List.all_cons, Bool.and_eq_true] at hm ⊢
    exact ⟨hcd (hf c List.mem_cons_self) (hf' d List.mem_cons_self) m hm.1,
      ih (fun c hc => hf c (List.mem_cons_of_mem _ hc)) (fun d hd => hf' d (List.mem_cons_of_mem _ hd)) hm.2⟩

theorem clause (hh : List.Forall₂ (Copied low) hyps hyps') (hg : List.Forall₂ Entails goals goals') :
    (Constr.clause i hyps goals).Entails (.clause j hyps' goals') := by
  intro h h' m hm
  have hgoals {c : Constr} (hc : c ∈ goals) : c.Formal := h.child (List.mem_append_right _ hc)
  have hgoals' {d : Constr} (hd : d ∈ goals') : d.Formal := h'.child (List.mem_append_right _ hd)
  rw [truth_clause (fun c hc => h.child (List.mem_append_left _ hc)) fun _ => hgoals, Bool.or_eq_true] at hm
  rw [truth_clause (fun c hc => h'.child (List.mem_append_left _ hc)) fun _ => hgoals', Bool.or_eq_true,
    all_copied hh]
  exact hm.imp_right (all hg (fun _ => hgoals) fun _ => hgoals')

theorem branch (jump : String) (p : Term .bool) (hy : yes.Entails yes') (hn : no.Entails no') :
    (Constr.branch i jump p yes no).Entails (.branch j jump p yes' no') := by
  intro h h' m hm
  have hyes {c d : Constr} {k : Nat} (h : (Constr.branch k jump p c d).Formal) : c.Formal ∧ d.Formal :=
    ⟨h.child List.mem_cons_self, h.child (List.mem_cons_of_mem _ List.mem_cons_self)⟩
  rw [truth_branch (hyes h).1 (hyes h).2] at hm
  rw [truth_branch (hyes h').1 (hyes h').2]
  split at hm <;> rename_i hp
  · rw [if_pos hp]
    exact hy (hyes h).1 (hyes h').1 m hm
  · rw [if_neg hp]
    exact hn (hyes h).2 (hyes h').2 m hm

theorem subst (hp : List.Forall₂ Exchange pairs pairs') (hc : c.Entails d) :
    (Constr.subst i c pairs).Entails (.subst j d pairs') := by
  intro h h' m hm
  have hsame : ∀ {ps qs : List (SomeTerm × SomeTerm)}, List.Forall₂ Exchange ps qs →
      (∀ p ∈ ps, p.2.1 = p.1.1) → (∀ q ∈ qs, q.2.1 = q.1.1) → qs = ps ∧ ∀ p ∈ ps, p.1.IsConst := by
    intro ps qs hpq hps hqs
    induction hpq with
    | nil => exact ⟨rfl, nofun⟩
    | @cons p q ps qs hx _ ih =>
      obtain ⟨rfl, hconst⟩ := ih (fun p hp => hps p (List.mem_cons_of_mem _ hp))
        fun q hq => hqs q (List.mem_cons_of_mem _ hq)
      refine ⟨?_, fun r hr => ?_⟩
      · rw [Prod.ext hx.old (hx.new (hps p List.mem_cons_self) (hqs q List.mem_cons_self))]
      · rcases List.mem_cons.mp hr with rfl | hr
        · exact hx.const
        · exact hconst r hr
  obtain ⟨rfl, hconst⟩ := hsame hp h.sorts h'.sorts
  rw [truth_subst_pairs hconst h] at hm
  rw [truth_subst_pairs hconst h']
  exact hc (h.child (List.mem_singleton_self _)) (h'.child (List.mem_singleton_self _)) _ hm

end Entails

end Constr

/-! ### New constraints -/

namespace Lanes

/-- Both walks at blocks, where no variable stands for another term. -/
abbrev Even (L : Lanes) (F : Frame → Frame → Prop) (A : α → β → Prop) (x : Walk α) (x' : Walk β) : Prop :=
  L.Both (fun _ => []) F A x x'

namespace Both

variable {L : Lanes} {F : Frame → Frame → Prop} {c d yes yes' no no' : Constr}
  {hyps hyps' goals goals' : List Constr} {pairs pairs' : List (SomeTerm × SomeTerm)}

/-- A new node in both walks. -/
theorem node {A : Constr → Constr → Prop} {f f' : Nat → Constr} (h : ∀ i j, A (f i) (f' j)) :
    L.Even F A (do return f (← newNode)) (do return f' (← newNode)) := by
  refine makes (P := fun c => ∃ i, c = f i) (Q := fun c => ∃ i, c = f' i) (fun ha => ?_) (fun ha => ?_) ?_
  · cases ha
    exact ⟨fun s => by cases s <;> rfl, _, rfl⟩
  · cases ha
    exact ⟨fun s => by cases s <;> rfl, _, rfl⟩
  · rintro _ _ ⟨i, rfl⟩ ⟨j, rfl⟩
    exact h i j

theorem mkHyp (name : String) (value : Term .bool) (tid : Option String) :
    L.Even F (Copied 0) (Walk.mkGoal name value tid) (Walk.mkGoal name value tid) :=
  node fun _ _ => .goal (Nat.zero_le _)

theorem mkGoal (name : String) (value : Term .bool) (tid : Option String) :
    L.Even F Constr.Entails (Walk.mkGoal name value tid) (Walk.mkGoal name value tid) :=
  (mkHyp name value tid).mono fun _ _ => .of_copied

theorem mkClause (hh : List.Forall₂ (Copied 0) hyps hyps') (hg : List.Forall₂ Constr.Entails goals goals') :
    L.Even F Constr.Entails (Walk.mkClause hyps goals) (Walk.mkClause hyps' goals') :=
  node fun _ _ => .clause hh hg

theorem mkBranch (jump : String) (p : Term .bool) (hy : yes.Entails yes') (hn : no.Entails no') :
    L.Even F Constr.Entails (Walk.mkBranch jump p yes no) (Walk.mkBranch jump p yes' no') :=
  node fun _ _ => .branch jump p hy hn

theorem replaceAll (hp : List.Forall₂ Exchange pairs pairs') (hc : c.Entails d) :
    L.Even F Constr.Entails (Walk.replaceAll c pairs) (Walk.replaceAll d pairs') := by
  rw [replaceAll_eq, replaceAll_eq]
  cases hp with
  | nil => exact pure hc
  | cons hx hp => exact node fun _ _ => .subst (.cons hx hp) hc

/-- The new value of a variable, which both walks have got. -/
theorem replaceOne {old new : SomeTerm} (ho : old.IsConst) (hc : c.Entails d) :
    L.Even F Constr.Entails (Walk.substitute c [old] [new]) (Walk.substitute d [old] [new]) := by
  have hp : List.Forall₂ Exchange [(old, new)] [(old, new)] := .cons (.refl ho) .nil
  exact replaceAll hp hc

theorem guard (hc : c.Entails d) (assumes verifies : List Hook) :
    L.Even F Constr.Entails (Walk.guard assumes verifies c) (Walk.guard assumes verifies d) := by
  refine ite (pure hc) ?_
  refine (mapM fun _ => mkHyp ..).bind fun hyps hyps' hh => ?_
  refine (mapM fun _ => mkGoal ..).bind fun goals goals' hg => ?_
  exact mkClause hh (List.rel_append hg (.cons hc .nil))

end Both

/-! ### Calls -/

/-- A function has the sorts of the arguments that it is applied to. -/
theorem applyTo_dom {r : TSort} {dom : List TSort} {h : Spine dom r} {args : List SomeTerm} {x : Term r}
    (hx : h.applyTo args = .ok x) : dom = args.map (·.1) := by
  induction args generalizing dom with
  | nil =>
    cases dom with
    | nil => rfl
    | cons => cases hx
  | cons a args ih =>
    cases dom with
    | nil => cases hx
    | cons s dom =>
      obtain ⟨y, hy, hx⟩ := bind_eq_ok hx
      rw [SomeTerm.as_eq_ok hy, List.map_cons, ih hx]

/-- Functions of one name that are applied to the same arguments give the same, if what they give is of
one sort. -/
theorem apply_same {f g : FuncDecl} {args : List SomeTerm} {t t' : SomeTerm} (hn : g.name = f.name)
    (ht : f.apply args = .ok t) (ht' : g.apply args = .ok t') (hs : t'.1 = t.1) : t' = t := by
  have happly {f : FuncDecl} {t : SomeTerm} (h : f.apply args = .ok t) :
      f.dom = args.map (·.1) ∧ t.1 = f.ran := by
    unfold FuncDecl.apply at h
    split at h
    · rename_i hdom
      cases h
      exact ⟨hdom, rfl⟩
    · obtain ⟨x, hx, h⟩ := bind_eq_ok h
      cases h
      exact ⟨applyTo_dom hx, rfl⟩
  obtain ⟨hdom, hran⟩ := happly ht
  obtain ⟨hdom', hran'⟩ := happly ht'
  have hfg : g = f := by
    obtain ⟨_, _, _⟩ := f
    obtain ⟨_, _, _⟩ := g
    cases hn
    cases hdom.trans hdom'.symm
    cases hran'.symm.trans (hs.trans hran)
    rfl
  exact Except.ok.inj (ht'.symm.trans (hfg ▸ ht))

namespace Both

variable {L : Lanes} {F : Frame → Frame → Prop} {c d : Constr}

theorem declare (name : String) (dom : List TSort) (ran : TSort) :
    L.Even F (fun f g => g.name = f.name) (Walk.on L.side (Env.declare name dom ran))
      (Walk.on L.side (Env.declare name dom ran)) := on fun hp _ ha hb => hp.declare ha hb

theorem getCalled (name : String) : L.Even F (fun p q => q = p ∧ SomeTerm.IsConst ⟨_, p⟩)
    (Walk.on L.side (Env.getCalled name)) (Walk.on L.side (Env.getCalled name)) := by
  refine on fun hp _ ha hb => ?_
  obtain ⟨hq, hc, h⟩ := hp.getCalled ha hb
  exact ⟨⟨hq, hc⟩, h⟩

theorem mkConst (v : Var) : L.Even F (fun t t' => t' = t ∧ t.IsConst) (Walk.on L.side (Env.mkVar v))
    (Walk.on L.side (Env.mkVar v)) := (mkVar v).mono fun _ _ h => ⟨h.1, h.2 List.not_mem_nil⟩

/-- Both walks read the same of what they have got. -/
theorem apply (name : String) (dom : List TSort) (args : List SomeTerm) (out : Var) :
    L.Even F Exchange
      (do
        let ran ← out.type.sort
        let f ← Walk.on L.side (Env.declare name dom ran)
        let old ← Walk.on L.side (Env.mkVar out)
        return (old, ← f.apply args))
      (do
        let ran ← out.type.sort
        let f ← Walk.on L.side (Env.declare name dom ran)
        let old ← Walk.on L.side (Env.mkVar out)
        return (old, ← f.apply args)) := by
  refine (lift _).after fun ran => (declare ..).bind fun f g hfg => (mkConst out).bind ?_
  rintro old _ ⟨rfl, hold⟩
  refine (lifts (A := fun t t' => t'.1 = t.1 → t' = t) fun _ _ ht ht' => apply_same hfg ht ht').bind ?_
  exact fun t t' h => pure ⟨rfl, hold, fun hs hs' => h (hs'.trans hs.symm)⟩

theorem poppedSp : L.Even F (fun p q => q = p ∧ p.1.IsConst) (Walk.poppedSp L.side) (Walk.poppedSp L.side) := by
  refine policy ?_ (fun _ => rfl) fun _ => rfl
  refine (mkConst _).bind ?_
  rintro sp _ ⟨rfl, hsp⟩
  refine (lift _).after fun s => ?_
  cases s with
  | bv w => exact (lift _).after fun _ => pure ⟨rfl, hsp⟩
  | bool => exact throw _
  | mem => exact throw _

theorem returnEffects (callee : Sub) : L.Even F (fun ps qs => qs = ps ∧ ∀ p ∈ ps, p.1.IsConst)
    (Walk.returnEffects L.side callee) (Walk.returnEffects L.side callee) := by
  have hlast (popped : List (SomeTerm × SomeTerm)) (hp : ∀ p ∈ popped, p.1.IsConst) :
      L.Even F (fun ps qs => qs = ps ∧ ∀ p ∈ ps, p.1.IsConst)
        (do
          let called ← Walk.on L.side (Env.getCalled callee.name)
          return popped ++ [(⟨_, called⟩, ⟨_, .truth true⟩)])
        (do
          let called ← Walk.on L.side (Env.getCalled callee.name)
          return popped ++ [(⟨_, called⟩, ⟨_, .truth true⟩)]) := by
    refine (getCalled _).bind ?_
    rintro called _ ⟨rfl, hcalled⟩
    refine pure ⟨rfl, fun p hmem => ?_⟩
    rcases List.mem_append.mp hmem with hmem | hmem
    · exact hp p hmem
    · cases List.mem_singleton.mp hmem
      exact hcalled
  refine policy ?_ (fun _ => rfl) fun _ => rfl
  dsimp only
  split
  · refine poppedSp.bind ?_
    rintro _ popped ⟨rfl, hp⟩
    refine hlast [popped] fun q hq => ?_
    cases List.mem_singleton.mp hq
    exact hp
  · exact hlast [] nofun

theorem exchanges_of_same {ps qs : List (SomeTerm × SomeTerm)} (h : qs = ps ∧ ∀ p ∈ ps, p.1.IsConst) :
    List.Forall₂ Exchange ps qs := by
  obtain ⟨rfl, hconst⟩ := h
  exact List.forall₂_same.mpr fun p hp => .refl (hconst p hp)

theorem summaryPairs (callee : Sub) (inputs outputs : List Var) :
    L.Even F (List.Forall₂ Exchange) (Walk.summaryPairs L.side callee inputs outputs)
      (Walk.summaryPairs L.side callee inputs outputs) := by
  -- what returns change is left out in both walks where a result has been replaced already
  have hfold {es ps qs : List (SomeTerm × SomeTerm)} (hes : ∀ p ∈ es, p.1.IsConst)
      (h : List.Forall₂ Exchange ps qs) : List.Forall₂ Exchange
        (es.foldl (fun pairs p => if pairs.any fun q => p.1.same q.1 then pairs else pairs ++ [p]) ps)
        (es.foldl (fun pairs p => if pairs.any fun q => p.1.same q.1 then pairs else pairs ++ [p]) qs) := by
    induction es generalizing ps qs with
    | nil => exact h
    | cons e es ih =>
      have hany : (qs.any fun q => e.1.same q.1) = ps.any fun q => e.1.same q.1 := by
        clear ih
        induction h with
        | nil => rfl
        | cons hx _ ih => rw [List.any_cons, List.any_cons, ih, hx.old]
      rw [List.foldl_cons, List.foldl_cons, hany]
      refine ih (fun p hp => hes p (List.mem_cons_of_mem e hp)) ?_
      split
      · exact h
      · exact List.rel_append h (.cons (.refl (hes e List.mem_cons_self)) .nil)
  refine (mapM_same fun v => mkVar_same v).after fun args => (mapM_same fun _ => ofExcept _).after fun sorts =>
    policy ?_ (fun _ => rfl) fun _ => rfl
  refine (mapM fun out => apply ..).bind fun changed changed' hc => (returnEffects callee).bind ?_
  rintro effects _ ⟨rfl, heffects⟩
  exact pure (hfold heffects hc)

theorem summary (callee : Sub) (inputs outputs : List Var) (hc : c.Entails d) :
    L.Even F Constr.Entails (Walk.summary L.side callee inputs outputs c)
      (Walk.summary L.side callee inputs outputs d) := by
  rw [summary_eq, summary_eq]
  exact (summaryPairs ..).bind fun _ _ hp => replaceAll hp hc

theorem firstArg : L.Even F Eq (Walk.firstArg L.side) (Walk.firstArg L.side) := by
  refine policy ?_ (fun _ => rfl) fun _ => rfl
  dsimp only
  split
  · exact mkVar_same _
  · refine poppedSp.bind ?_
    rintro p _ ⟨rfl, -⟩
    exact (mkVar_same _).after fun _ => lift _

theorem summarize {rule : CallRule} (hr : rule.quiet) (callee : Sub) (tid : String) (hc : c.Entails d) :
    L.Even F Constr.Entails (Walk.summarize L.side rule callee c tid)
      (Walk.summarize L.side rule callee d tid) := by
  refine policy ?_ (fun _ => rfl) fun _ => rfl
  have heffects : L.Even F Constr.Entails (do Walk.replaceAll c (← Walk.returnEffects L.side callee))
      (do Walk.replaceAll d (← Walk.returnEffects L.side callee)) :=
    (returnEffects callee).bind fun _ _ h => replaceAll (exchanges_of_same h) hc
  cases rule with
  | verifierError => exact mkGoal ..
  | verifierAssume =>
    exact firstArg.after fun arg => (lift _).after fun cond => (mkHyp ..).bind fun _ _ hh =>
      mkClause (.cons hh .nil) (.cons hc .nil)
  | verifierNondet => cases hr
  | empty =>
    refine (getCalled _).bind ?_
    rintro called _ ⟨rfl, hcalled⟩
    exact replaceOne hcalled hc
  | argTerms => exact summary _ _ _ hc
  | raxOut | chaosRax =>
    dsimp only
    split
    · exact throw _
    · exact policy (summary _ _ _ hc) (fun _ => rfl) fun _ => rfl
  | chaosCallerSaved => exact policy (summary _ _ _ hc) (fun _ => rfl) fun _ => rfl
  | contract => cases hr
  | default => exact heffects
  | inline => exact heffects

end Both

/-! ### Elements -/

/-- What the frames of the two walks have in common. -/
structure Shared (L : Lanes) (f f' : Frame) : Prop where
  graph : f'.graph = f.graph
  built : f.graph = some g → ∃ s, L.body s ∧ Graph.ofSub s = .ok g
  retPost : Option.Rel Constr.Entails f.retPost f'.retPost

/-- What the elements of a block find in the frames. -/
structure Placed (L : Lanes) (f f' : Frame) : Prop extends L.Shared f f' where
  target (t : String) : Option.Rel Constr.Entails (f.targets.lookup t) (f'.targets.lookup t)
  pred : f'.pred = f.pred

/-- Bodies of callees are expanded alike. -/
def Expanding (L : Lanes) (expand expand' : Expand) : Prop :=
  ∀ {c d : Constr} {s : Sub}, L.body s → c.Entails d →
    L.Even L.Shared Constr.Entails (expand L.side c s) (expand' L.side d s)

namespace Both

variable {L : Lanes} {F : Frame → Frame → Prop} {c d post post' : Constr} {expand expand' : Expand} {s : Sub}
  {b : Blk} {j : Jump}

theorem getD {o o' : Option Constr} (h : Option.Rel Constr.Entails o o') (hc : c.Entails d) :
    (o.getD c).Entails (o'.getD d) := by
  cases h with
  | some h => exact h
  | none => exact hc

theorem assign {lhs : Var} {rhs : Exp} (he : rhs.known) (hc : c.Entails d) :
    L.Even F Constr.Entails (Walk.assign L.side c lhs rhs) (Walk.assign L.side d lhs rhs) := by
  refine (translateChecked he).after fun (value, hooks) => (mkConst lhs).bind ?_
  rintro old _ ⟨rfl, hold⟩
  exact ite (throw _) ((guard hc ..).bind fun _ _ h => (replaceOne hold h).bind fun _ _ h => guard h ..)

theorem visitPhi {p : Phi} (hp : (Elt.phi p).known) (hc : c.Entails d) :
    L.Even L.Placed Constr.Entails (Walk.visitPhi L.side c p) (Walk.visitPhi L.side d p) := by
  have hknown {x : String × Exp} (hx : x ∈ p.values) : x.2.known := List.all_eq_true.mp hp x hx
  refine env fun e e' _ _ _ _ _ hf => ?_
  rw [hf.pred]
  split
  · rename_i value hv
    obtain ⟨pred, -, hpred⟩ := Option.bind_eq_some_iff.mp hv
    exact assign (hknown (List.mem_reverse.mp (Table.mem_of_lookup hpred))) hc
  · exact (note ..).after fun _ => assign (hknown (List.head_mem _)) hc

theorem targetPre (l : Label) (hc : c.Entails d) :
    L.Even L.Placed Constr.Entails (Walk.targetPre L.side l c) (Walk.targetPre L.side l d) := by
  cases l with
  | direct t => exact env fun _ _ _ _ _ _ _ hf => pure (getD (hf.target t) hc)
  | indirect => exact pure hc

theorem returnPre (hc : c.Entails d) :
    L.Even L.Placed Constr.Entails (Walk.returnPre L.side c) (Walk.returnPre L.side d) :=
  env fun _ _ _ _ _ _ _ hf => pure (getD hf.retPost hc)

/-- The body of a callee is walked in a frame of its own. -/
theorem nesting {x x' : Walk Constr} (tid : String) (h : L.Even L.Shared Constr.Entails x x') :
    L.Even L.Placed Constr.Entails (Walk.nesting L.side tid x) (Walk.nesting L.side tid x') := by
  refine ⟨fun {w w' _ _ a b} hw ha hb => ?_⟩
  rw [nesting_eq] at ha hb
  have hin : L.Alongside (fun _ => []) L.Shared (inside w L.side tid) (inside w' L.side tid) :=
    hw.moved rfl rfl (congrArg (tid :: ·) hw.inlining) rfl rfl
      ⟨hw.frame.graph, hw.frame.built, hw.frame.retPost⟩
  cases hx : x (inside w L.side tid) with
  | error f w₁ =>
    rw [hx] at ha
    cases ha
  | ok c w₁ =>
  cases hx' : x' (inside w' L.side tid) with
  | error f w₁' =>
    rw [hx'] at hb
    cases hb
  | ok d w₁' =>
  rw [hx] at ha
  rw [hx'] at hb
  cases ha
  cases hb
  obtain ⟨hcd, h₁⟩ := h.run hin hx hx'
  exact ⟨hcd, h₁.moved rfl rfl (congrArg (List.drop 1) h₁.inlining) rfl rfl hw.frame⟩

section

variable (hx : L.Expanding expand expand') (hc : c.Entails d)

include hx hc

theorem inlineCall {callee : Sub} (hcallee : L.body callee)
    (hfallback : ∀ r, L.policy.fallback = some r → r.quiet) (tid : String) :
    L.Even L.Placed Constr.Entails (Walk.inlineCall expand L.side callee c tid)
      (Walk.inlineCall expand' L.side callee d tid) := by
  refine ite ((note ..).after fun _ => pure hc) ?_
  refine env fun _ _ _ _ hi _ _ _ => ?_
  rw [hi]
  refine ite ((note ..).after fun _ => policy ?_ (fun _ => rfl) fun _ => rfl) ?_
  · split
    · exact summarize (hfallback _ ‹_›) _ _ hc
    · exact throw _
  · exact nesting _ (hx hcallee hc)

variable (hs : L.body s) (hb : b ∈ s.blks) (hj : .jump j ∈ b.elts)

include hs hb hj

theorem called {target : Label} {ret : Option Label} (hk : j.kind = .call target ret) (tid : String) :
    L.Even L.Placed Constr.Entails (Walk.called expand L.side c tid target)
      (Walk.called expand' L.side d tid target) := by
  cases target with
  | indirect => exact (note ..).after fun _ => pure hc
  | direct name =>
    obtain ⟨⟨rule, callee⟩, hl, hquiet, hinline⟩ := L.handled hs ⟨b, hb, j, ret, hj, hk⟩
    have hhandled : L.Even L.Placed Constr.Entails
        (dispatch expand L.side c tid (L.policy.callee name))
        (dispatch expand' L.side d tid (L.policy.callee name)) := by
      refine (handler hl).bind ?_
      rintro _ _ ⟨rfl, rfl⟩
      dsimp only at hquiet hinline ⊢
      split
      · obtain ⟨hcallee, hfallback⟩ := hinline _ rfl
        exact inlineCall hx hc hcallee hfallback tid
      · exact summarize hquiet _ _ hc
    refine policy ?_ (fun _ => rfl) fun _ => rfl
    rw [Env.callee] at hhandled
    cases hsub : L.policy.findSub? (.direct name) with
    | some callee =>
      simp only [hsub] at hhandled ⊢
      exact hhandled
    | none =>
      simp only [hsub] at hhandled ⊢
      exact (note ..).after fun _ => hhandled

theorem visitCall {target : Label} {ret : Option Label} (hk : j.kind = .call target ret) (tid : String) :
    L.Even L.Placed Constr.Entails (Walk.visitCall expand L.side c tid target ret)
      (Walk.visitCall expand' L.side d tid target ret) := by
  cases ret with
  | none => exact (returnPre hc).bind fun _ _ h => called hx h hs hb hj hk tid
  | some l => exact (targetPre l hc).bind fun _ _ h => called hx h hs hb hj hk tid

theorem jumpPre : L.Even L.Placed Constr.Entails (Walk.jumpPre expand L.side c j)
    (Walk.jumpPre expand' L.side d j) := by
  unfold Walk.jumpPre
  split
  · exact (note ..).after fun _ => pure hc
  · exact targetPre _ hc
  · rename_i target ret hk
    exact visitCall hx hc hs hb hj hk j.tid
  · exact returnPre hc
  · exact targetPre _ hc

theorem visitJump : L.Even L.Placed Constr.Entails (Walk.visitJump expand L.side c j)
    (Walk.visitJump expand' L.side d j) := by
  have hknown : j.cond.known := L.elts hs hb hj
  refine policy ?_ (fun _ => rfl) fun _ => rfl
  split
  · -- a forced jump asks for its condition, and for what holds where it leads if it is taken
    refine (condition hknown).after fun cond => ite ?_ ?_
    · exact (targetPre _ hc).bind fun _ _ h => (mkGoal ..).bind fun _ _ hg =>
        mkClause .nil (.cons hg (.cons h .nil))
    · exact (mkGoal ..).bind fun _ _ hg => mkClause .nil (.cons hg (.cons hc .nil))
  · refine (jumpPre hx hc hs hb hj).bind fun _ _ h => ite (pure h) ?_
    exact (translateChecked hknown).after fun (cond, hooks) => (lift _).after fun _ =>
      (mkBranch _ _ h hc).bind fun _ _ h => guard h ..

end

/-- The elements of a block are monotone. -/
theorem visitElts (hx : L.Expanding expand expand') (hs : L.body s) (hb : b ∈ s.blks)
    {es : List Elt} (hes : ∀ e ∈ es, e ∈ b.elts) (hc : c.Entails d) :
    L.Even L.Placed Constr.Entails (Walk.visitElts expand L.side c es)
      (Walk.visitElts expand' L.side d es) := by
  induction es with
  | nil => exact pure hc
  | cons e es ih =>
    refine (ih fun e' he' => hes e' (List.mem_cons_of_mem e he')).bind fun _ _ h => ?_
    have he := hes e List.mem_cons_self
    cases e with
    | define => exact assign (L.elts hs hb he) h
    | phi => exact visitPhi (L.elts hs hb he) h
    | jump => exact visitJump hx h hs hb he

end Both

end Lanes

end Precond

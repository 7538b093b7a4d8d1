import Precond.Proofs.Walk.Keeps
import Precond.Proofs.Walk.Renamed

/-! Subroutines in a program and in the program with other names for variables. Backwards through a block the
variables count that may be read from there on before they are assigned, and those that count behind the
subroutine (`IR.Sub.Live`): the preconditions of a block and of the renamed block are the same, as far as
these variables are (`Guise.Both.visitElts`). Both walks settle the same copies of blocks and keep the same
for them (`Guise.settleNode`). Variables with other names are assigned before they are read, so that none of
them counts at the entry (`Guise.visitSub`). -/

namespace Precond

open IR Precond.Flow Walk

namespace IR.Sub

variable {s : Sub} {Z : Var → Prop} {n : Option String} {es : List Elt} {j : Jump} {t : String} {v : Var}

/-- The variables that count at elements of a block: those that may be read from there on, and those that
count behind the subroutine. -/
def Live (s : Sub) (Z : Var → Prop) (n : Option String) (es : List Elt) (v : Var) : Prop :=
  s.Needs v n es ∨ Z v

/-- The variables that count at a block. -/
def LiveAt (s : Sub) (Z : Var → Prop) (t : String) (v : Var) : Prop := s.NeedsAt v t ∨ Z v

theorem Leads.isSome (h : s.Leads j) (ht : Flow.Jump.target? j = some t) : (s.at? t).isSome := by
  obtain ⟨-, h⟩ := h
  split at h
  · rename_i hk
    rw [Flow.Jump.target?, hk] at ht
    cases ht
  · rename_i hk
    rw [Flow.Jump.target?, hk] at ht
    cases ht
  · obtain ⟨u, hu, hs⟩ := h
    cases ht.symm.trans hu
    exact hs

/-- Behind a jump that need not be taken count the variables that count at it. -/
theorem Live.passed (hj : ¬ s.Leads j) (h : s.Live Z n es v) : s.Live Z n (.jump j :: es) v :=
  h.imp_left (.passed hj)

theorem Live.taken (ht : Flow.Jump.target? j = some t) (h : s.LiveAt Z t v) : s.Live Z n (.jump j :: es) v :=
  h.imp_left fun ⟨_, hq, h⟩ => .taken ht hq h

end IR.Sub

namespace Guise

variable (G : Guise)

/-- Frames in the graphs of a subroutine and of the renamed one. -/
structure Within (s : Sub) (g : Graph) (Z : Var → Prop) (f f' : Frame) : Prop where
  graph : f.graph = some g
  graph' : f'.graph = some (g.renamed G.ρ)
  retPost : ∃ c c', f.retPost = some c ∧ f'.retPost = some c' ∧ G.ρ.Alike Z c c'
  precond (t : String) (u : Unroll) :
    Option.Rel (G.ρ.Alike (s.LiveAt Z t)) f.preconds[(t, u)]? f'.preconds[(t, u)]?

/-- What the elements of a block find in the frames. -/
structure Placed (s : Sub) (g : Graph) (Z : Var → Prop) (b : Blk) (f f' : Frame) : Prop
    extends G.Within s g Z f f' where
  target (t : String) : Option.Rel (G.ρ.Alike (s.LiveAt Z t)) (f.targets.lookup t) (f'.targets.lookup t)
  named : j ∈ b.jumps → Flow.Jump.target? j = some t → (s.at? t).isSome → (f.targets.lookup t).isSome
  pred : f'.pred = f.pred
  unroll : f'.unroll = f.unroll

/-- Bodies of callees are expanded alike. -/
structure Expanding (expand : Expand) : Prop where
  run {s : Sub} {Z : Var → Prop} {c c' : Constr} {w w' : World} : G.Has s → G.ρ.Alike Z c c' →
    (w.env G.side).frame.root = none → (w'.env G.side).frame.root = none →
    G.Renders G.Own (fun _ _ => True) (w.env G.side) (w'.env G.side) →
    Conform (G.ρ.Alike Z) (fun w w' => G.Renders G.Own (fun _ _ => True) (w.env G.side) (w'.env G.side))
      (expand G.side c s w) (expand G.side c' (G.ρ.sub s) w')

variable {G} {T : Var → SomeTerm → SomeTerm → Prop} {F : Frame → Frame → Prop} {s : Sub} {g : Graph} {b : Blk}
  {j : Jump} {es : List Elt} {n : Option String} {X Y Z : Var → Prop} {c c' after after' : Constr}
  {expand : Expand}

namespace Both

/-- The body of a callee is walked in a frame of its own. -/
theorem nesting {x x' : Walk Constr} (tid : String)
    (h : ∀ {w w'}, (w.env G.side).frame.root = none → (w'.env G.side).frame.root = none →
      G.Renders G.Own (fun _ _ => True) (w.env G.side) (w'.env G.side) →
      Conform (G.ρ.Alike X) (fun w w' => G.Renders G.Own (fun _ _ => True) (w.env G.side) (w'.env G.side))
        (x w) (x' w')) :
    G.Both G.Own F (G.ρ.Alike X) (Walk.nesting G.side tid x) (Walk.nesting G.side tid x') := by
  refine ⟨fun {w w'} hw => ?_⟩
  rw [nesting_eq, nesting_eq]
  have hin : G.Renders G.Own (fun _ _ => True) ((inside w G.side tid).env G.side)
      ((inside w' G.side tid).env G.side) := by
    rw [inside, inside, World.env_setEnv, World.env_setEnv]
    exact { hw with
      left := hw.left
      right := hw.right
      inlining := congrArg (tid :: ·) hw.inlining
      frame := True.intro }
  have hroot (w : World) : ((inside w G.side tid).env G.side).frame.root = none := by
    rw [inside, World.env_setEnv]
    rfl
  have hrun := h (hroot w) (hroot w') hin
  revert hrun
  generalize x (inside w G.side tid) = r
  generalize x' (inside w' G.side tid) = r'
  rintro (⟨hc, h₁⟩ | _)
  · refine .ok hc ?_
    rw [outside, outside, World.env_setEnv, World.env_setEnv]
    exact { h₁ with
      left := h₁.left
      right := h₁.right
      inlining := congrArg (List.drop 1) h₁.inlining
      frame := hw.frame }
  · exact .error

variable (hG : G.Fair)

include hG

/-! ### Assignments -/

/-- Before an assignment what it reads counts, and what counts behind it except its variable. -/
theorem assign {lhs : Var} {rhs : Exp} (hread : ∀ v ∈ rhs.freeVars, X v) (hkept : ∀ v, v ≠ lhs → Y v → X v)
    (hc : G.ρ.Alike Y c c') :
    G.Both G.Own F (G.ρ.Alike X) (Walk.assign G.side c lhs rhs)
      (Walk.assign G.side c' (G.ρ lhs) (G.ρ.exp rhs)) := by
  refine (translateChecked hG fun v hv _ => hread v hv).bind ?_
  rintro ⟨value, hooks⟩ ⟨value', hooks'⟩ ⟨hvalue, hhooks⟩
  refine (on (A := G.Own lhs) fun h => h.mkVar hG fun _ _ ht => ht).bind fun old old' hold => ?_
  obtain ⟨m, t, rfl, rfl⟩ := hold.consts
  have hsort : value'.1 = value.1 := hvalue.level
  dsimp only
  rw [hsort]
  refine ite (fun _ => throw _ _) fun _ => ?_
  -- conditions after the assignment are about what counts behind it and what it reads
  have hlater (duty : Duty) : List.Forall₂ (G.Hooked fun v => Y v ∨ X v)
      (Walk.select hooks duty .after) (Walk.select hooks' duty .after) :=
    (Hooked.select hhooks duty .after).imp fun _ _ h =>
      ⟨h.duty, h.placement, h.term.mono fun _ _ hv => .inr hv⟩
  refine (guard (hlater .assume) (hlater .verify) (hc.mono fun _ _ hv => .inl hv)).bind fun c c' hc => ?_
  refine (replaceOne hold.consts hvalue (fun k u hk => ?_) hc).bind fun c c' hc => ?_
  · by_cases hlhs : (⟨t, .const m t⟩ : SomeTerm) = ⟨u, .const k u⟩
    · exact .inr hlhs
    · refine .inl fun type htype hm => ?_
      refine (hk type htype hm).elim (fun hy => hkept _ (fun hv => hlhs ?_) hy) id
      subst hv
      obtain ⟨⟨u', hu, heq⟩, -⟩ := hold
      cases heq
      cases (TSort.type?_eq.mp htype).symm.trans hu
      rfl
  · exact guard (Hooked.select hhooks .assume .before) (Hooked.select hhooks .verify .before) hc

theorem define {d : Def} (hc : G.ρ.Alike (s.Live Z n es) c c') :
    G.Both G.Own F (G.ρ.Alike (s.Live Z n (.define d :: es))) (Walk.assign G.side c d.lhs d.rhs)
      (Walk.assign G.side c' (G.ρ d.lhs) (G.ρ.exp d.rhs)) :=
  assign hG (fun _ hv => .inl (.define hv)) (fun _ hv h => h.imp_left (.defined (Ne.symm hv))) hc

theorem visitPhi {p : Phi} (hc : G.ρ.Alike (s.Live Z n es) c c') :
    G.Both G.Own (G.Placed s g Z b) (G.ρ.Alike (s.Live Z n (.phi p :: es))) (Walk.visitPhi G.side c p)
      (Walk.visitPhi G.side c' (G.ρ.phi p)) := by
  have hassign {x : String × Exp} (hx : x ∈ p.values) :
      G.Both G.Own (G.Placed s g Z b) (G.ρ.Alike (s.Live Z n (.phi p :: es)))
        (Walk.assign G.side c p.lhs x.2) (Walk.assign G.side c' (G.ρ p.lhs) (G.ρ.exp x.2)) :=
    assign hG (fun _ hv => .inl (.phi hx hv)) (fun _ hv h => h.imp_left (.chosen (Ne.symm hv))) hc
  refine env fun e e' h => ?_
  have halong : e'.frame.pred.bind (G.ρ.phi p).along? = (e.frame.pred.bind p.along?).map G.ρ.exp := by
    rw [h.frame.pred]
    cases e.frame.pred with
    | none => rfl
    | some pred => exact Renaming.along_phi p pred
  rw [halong]
  cases hv : e.frame.pred.bind p.along? with
  | some value =>
    obtain ⟨pred, -, hpred⟩ := Option.bind_eq_some_iff.mp hv
    exact hassign (List.mem_reverse.mp (Table.mem_of_lookup hpred))
  | none =>
    refine (note ..).bind fun _ _ _ => ?_
    rw [Renaming.first_phi]
    exact hassign (List.head_mem p.nonempty)

/-! ### Calls -/

theorem inlineCall (hx : G.Expanding expand) {name : String} (hcalls : G.Calls name) (tid : String)
    (hc : G.ρ.Alike X c c') :
    G.Both G.Own F (G.ρ.Alike X) (Walk.inlineCall expand G.side (G.base.callee name) c tid)
      (Walk.inlineCall expand G.side (G.ρ.sub (G.base.callee name)) c' tid) := by
  have hempty : (G.ρ.sub (G.base.callee name)).blks.isEmpty = (G.base.callee name).blks.isEmpty :=
    List.isEmpty_map ..
  unfold Walk.inlineCall
  rw [hempty]
  refine ite (fun _ => (note ..).bind fun _ _ _ => pure hc) fun hblks => env fun e e' h => ?_
  rw [h.inlining]
  refine ite (fun _ => (note ..).bind fun _ _ _ => env fun e e' h => ?_) fun _ => ?_
  · obtain ⟨hf, hf'⟩ := h.setting Env.fallback fun _ _ => rfl
    rw [hf, hf']
    split
    · rename_i rule hrule
      exact summarize hG (hG.fallback hcalls hrule) tid hc
    · exact throw _ _
  · refine nesting _ fun hr hr' h => hx.run (.inr ((Env.callee_mem ..).resolve_right fun h => hblks ?_)) hc hr hr' h
    rw [h]
    rfl

theorem called (hx : G.Expanding expand) {target : Label}
    (hcalls : ∀ name, target = .direct name → G.Calls name) (tid : String) (hc : G.ρ.Alike X c c') :
    G.Both G.Own F (G.ρ.Alike X) (Walk.called expand G.side c tid target)
      (Walk.called expand G.side c' tid (G.ρ.label target)) := by
  cases target with
  | indirect => exact (note ..).bind fun _ _ _ => pure hc
  | direct name =>
    have hhandled : G.Both G.Own F (G.ρ.Alike X)
        (dispatch expand G.side c tid (G.base.callee name))
        (dispatch expand G.side c' tid (G.ρ.sub (G.base.callee name))) := by
      refine (on fun h => h.handler hG (hcalls name rfl)).bind ?_
      rintro ⟨rule, callee⟩ ⟨rule', callee'⟩ ⟨hrule, hcallee, m, hm, heq, hchosen⟩
      dsimp only at hrule hcallee heq hchosen ⊢
      rw [hrule, hcallee]
      have hr : G.ρ.SparesRule G.base callee rule := by
        rw [heq] at hchosen ⊢
        exact hG.chosen hm hchosen
      split
      · exact inlineCall hG hx (hcalls name rfl) tid hc
      · exact summarize hG hr tid hc
    refine env fun e e' h => ?_
    obtain ⟨hfind, hfind'⟩ := h.findSub (.direct name)
    rw [hfind, show e'.findSub? (G.ρ.label (.direct name)) = _ from hfind']
    rw [Env.callee] at hhandled
    cases hsub : G.base.findSub? (.direct name) with
    | some callee =>
      rw [hsub] at hhandled
      exact hhandled
    | none =>
      rw [hsub] at hhandled
      exact (note ..).bind fun _ _ _ => hhandled

/-! ### Jumps -/

section

variable (hj : j ∈ b.jumps) (hc : G.ρ.Alike (s.Live Z n es) c c')

omit hG in
include hj hc in
/-- What holds where a jump leads, or behind the jump if it leads to no block. -/
theorem targetPre {t : String} (ht : Flow.Jump.target? j = some t) :
    G.Both G.Own (G.Placed s g Z b) (G.ρ.Alike (s.Live Z n (.jump j :: es)))
      (Walk.targetPre G.side (.direct t) c) (Walk.targetPre G.side (.direct t) c') := by
  refine env fun e e' h => pure ?_
  have htarget := h.frame.target t
  have hnamed := h.frame.named hj ht
  revert htarget hnamed
  cases e.frame.targets.lookup t <;> cases e'.frame.targets.lookup t <;> intro htarget hnamed
  · exact hc.mono fun _ _ hv => hv.passed fun hleads => Bool.noConfusion (hnamed (hleads.isSome ht))
  · cases htarget
  · cases htarget
  · cases htarget with
    | some h => exact h.mono fun _ _ hv => .taken ht hv

omit hG in
theorem returnPre : G.Both G.Own (G.Placed s g Z b) (G.ρ.Alike Z) (Walk.returnPre G.side c)
    (Walk.returnPre G.side c') := by
  refine env fun e e' h => pure ?_
  obtain ⟨d, d', hd, hd', halike⟩ := h.frame.retPost
  rw [hd, hd']
  exact halike

include hj hc in
theorem jumpPre (hx : G.Expanding expand) (hs : G.Has s) (hb : b ∈ s.blks) :
    G.Both G.Own (G.Placed s g Z b) (G.ρ.Alike (s.Live Z n (.jump j :: es)))
      (Walk.jumpPre expand G.side c j) (Walk.jumpPre expand G.side c' (G.ρ.jump j)) := by
  have hreturn : G.Both G.Own (G.Placed s g Z b) (G.ρ.Alike (s.Live Z n (.jump j :: es)))
      (Walk.returnPre G.side c) (Walk.returnPre G.side c') :=
    returnPre.mono fun _ _ h => h.mono fun _ _ hv => .inr hv
  -- control goes on behind a jump to an address
  have hpassed (hk : Flow.Jump.target? j = none) (hret : (∀ l, j.kind ≠ .ret l) ∧ ∀ l, j.kind ≠ .call l none) :
      G.ρ.Alike (s.Live Z n (.jump j :: es)) c c' := by
    refine hc.mono fun _ _ hv => hv.passed fun hleads => ?_
    obtain ⟨-, hleads⟩ := hleads
    split at hleads
    · exact hret.1 _ ‹_›
    · exact hret.2 _ ‹_›
    · obtain ⟨t, ht, -⟩ := hleads
      cases hk.symm.trans ht
  have htarget {t : String} (ht : Flow.Jump.target? j = some t) := targetPre (g := g) hj hc ht
  obtain ⟨kind, cond, tid⟩ := j
  have hcalls {l : Label} {ret : Option Label} (hk : kind = .call l ret) (name : String)
      (hname : l = .direct name) : G.Calls name := ⟨s, hs, b, hb, _, hj, ret, hname ▸ hk⟩
  cases kind with
  | goto l =>
    cases l with
    | direct t => exact htarget rfl
    | indirect => exact (note ..).bind fun _ _ _ => pure (hpassed rfl ⟨nofun, nofun⟩)
  | ret => exact hreturn
  | interrupt => exact htarget rfl
  | call l ret =>
    cases ret with
    | none => exact hreturn.bind fun _ _ h => called hG hx (hcalls rfl) tid h
    | some r =>
      cases r with
      | direct t => exact (htarget rfl).bind fun _ _ h => called hG hx (hcalls rfl) tid h
      | indirect => exact called hG hx (hcalls rfl) tid (hpassed rfl ⟨nofun, nofun⟩)

omit hG in
/-- The condition of a jump that is always taken is true. -/
theorem condition_always (side : Side) :
    ∃ p, Walk.condition side Exp.always = Pure.pure p ∧ ∀ m, p.holds m = true := ⟨_, rfl, fun _ => rfl⟩

include hj hc in
theorem forceJump {t : String} (ht : Flow.Jump.target? j = some t) (taken : Bool) :
    G.Both G.Own (G.Placed s g Z b) (G.ρ.Alike (s.Live Z n (.jump j :: es)))
      (Walk.forceJump G.side c j t taken) (Walk.forceJump G.side c' (G.ρ.jump j) t taken) := by
  have hcond : G.Shows G.Own (s.Live Z n (.jump j :: es)) j.cond := .own fun _ hv _ => .inl (.jump hv)
  have hnot {p p' : Term .bool} (h : G.ρ.Same (s.Live Z n (.jump j :: es)) ⟨_, p⟩ ⟨_, p'⟩) :
      G.ρ.Same (s.Live Z n (.jump j :: es)) ⟨_, p.not⟩ ⟨_, p'.not⟩ :=
    .of_holds fun m m' hm => by rw [Spine.holds_not, Spine.holds_not, h.holds hm]
  cases taken with
  | true =>
    refine (condition hG hcond).bind fun _ _ hp => (targetPre hj hc ht).bind fun _ _ h => ?_
    exact (mkGoal hp ..).bind fun _ _ hgoal => mkClause .nil (.cons hgoal (.cons h .nil))
  | false =>
    by_cases hleads : s.Leads j
    · -- a jump that is always taken is not skipped, whatever holds behind it
      obtain ⟨p, hp, htrue⟩ := condition_always G.side
      have hfalse (m : Model) : p.not.holds m = false := by rw [Spine.holds_not, htrue m]; rfl
      have halways : (G.ρ.jump j).cond = Exp.always := Renaming.exp_eq_always.mpr hleads.1
      unfold Walk.forceJump
      rw [halways, hleads.1, hp, pure_bind, pure_bind, if_neg Bool.false_ne_true, if_neg Bool.false_ne_true]
      have hskip (name : String) (tid : String) : G.Both G.Own (G.Placed s g Z b)
          (fun d d' => ∃ i i', d = .goal i name p.not (some tid) ∧ d' = .goal i' name p.not (some tid))
          (Walk.mkGoal name p.not (some tid)) (Walk.mkGoal name p.not (some tid)) :=
        node fun i i' => ⟨i, i', rfl, rfl⟩
      refine (hskip _ _).bind ?_
      rintro _ _ ⟨i, i', rfl, rfl⟩
      exact node fun _ _ => .clause_false hfalse hfalse _ _ _ _ hc
    · refine (condition hG hcond).bind fun _ _ hp => (mkGoal (hnot hp) ..).bind fun _ _ hgoal => ?_
      exact mkClause .nil (.cons hgoal (.cons (hc.mono fun _ _ hv => hv.passed hleads) .nil))

include hj hc in
theorem visitJump (hx : G.Expanding expand) (hs : G.Has s) (hb : b ∈ s.blks) :
    G.Both G.Own (G.Placed s g Z b) (G.ρ.Alike (s.Live Z n (.jump j :: es)))
      (Walk.visitJump expand G.side c j) (Walk.visitJump expand G.side c' (G.ρ.jump j)) := by
  refine env fun e e' h => ?_
  have hforced : Walk.forced? e' (G.ρ.jump j) = Walk.forced? e j := by
    obtain ⟨hr, hr'⟩ := h.setting Env.reach fun _ _ => rfl
    unfold Walk.forced?
    rw [hr, hr']
    obtain ⟨kind, cond, tid⟩ := j
    dsimp only [Renaming.jump]
    cases G.base.reach.lookup tid with
    | none => rfl
    | some taken =>
      cases kind with
      | goto l => cases l <;> rfl
      | _ => rfl
  rw [hforced]
  cases hf : Walk.forced? e j with
  | some p =>
    obtain ⟨t, taken⟩ := p
    refine forceJump hG hj hc ?_ taken
    unfold Walk.forced? at hf
    split at hf <;> cases hf
    rename_i hk _
    rw [Flow.Jump.target?, hk]
  | none =>
    refine (jumpPre hG hj hc hx hs hb).bind fun after after' hafter => ?_
    have halways : (G.ρ.jump j).cond = Exp.always ↔ j.cond = Exp.always := Renaming.exp_eq_always
    rw [if_congr halways rfl rfl]
    refine ite (fun _ => pure hafter) fun hcond => ?_
    have hpost : G.ρ.Alike (s.Live Z n (.jump j :: es)) c c' := hc.mono fun _ _ hv => hv.passed fun h => hcond h.1
    refine (translateChecked (X := s.Live Z n (.jump j :: es)) hG fun _ hv _ => .inl (.jump hv)).bind ?_
    rintro ⟨cond, hooks⟩ ⟨cond', hooks'⟩ ⟨hvalue, hhooks⟩
    refine (lift hvalue.condition).bind fun _ _ hp => (mkBranch hp _ hafter hpost).bind fun _ _ h => ?_
    have hselect (duty : Duty) := List.rel_append (Hooked.select hhooks duty .before)
      (Hooked.select hhooks duty .after)
    exact guard (hselect .assume) (hselect .verify) h

end

/-! ### Elements -/

/-- The elements of a block and those with other names. -/
theorem visitElts (hx : G.Expanding expand) (hs : G.Has s) (hb : b ∈ s.blks) (hes : ∀ e ∈ es, e ∈ b.elts)
    (hc : G.ρ.Alike (s.Live Z n []) c c') :
    G.Both G.Own (G.Placed s g Z b) (G.ρ.Alike (s.Live Z n es)) (Walk.visitElts expand G.side c es)
      (Walk.visitElts expand G.side c' (es.map G.ρ.elt)) := by
  induction es with
  | nil => exact pure hc
  | cons e es ih =>
    refine (ih fun e' he' => hes e' (List.mem_cons_of_mem e he')).bind fun _ _ h => ?_
    have he := hes e List.mem_cons_self
    cases e with
    | define => exact define hG h
    | phi => exact visitPhi hG h
    | jump j => exact visitJump hG (Blk.mem_jumps he) h hx hs hb

end Both

end Guise

namespace Walk

variable {side : Side} {w : World} {vs : List Var} {v : Var}

/-- What variables stand for after those of a list have been bound. -/
structure Bound (vs : List Var) (e : Env) (vars : Table Var SomeTerm) : Prop where
  kept : e.vars.lookup u = some t → vars.lookup u = some t
  own : u ∈ vs → e.vars.lookup u = none → ∃ t, u.Own t ∧ vars.lookup u = some t
  free : u ∉ vs → e.vars.lookup u = none → vars.lookup u = none

/-- All variables of a list are bound. -/
abbrev bindEach (side : Side) (vs : List Var) : Walk PUnit :=
  forIn vs PUnit.unit fun v _ => do
    let _ ← on side (Env.mkVar v)
    pure (ForInStep.yield PUnit.unit)

theorem bindEach_cons {t : SomeTerm} {e : Env} (h : Env.mkVar v (w.env side) = .ok t e) :
    bindEach side (v :: vs) w = bindEach side vs (w.setEnv side e) := by
  have hon : on side (Env.mkVar v) w = .ok t (w.setEnv side e) := by rw [on, h]
  unfold bindEach
  rw [List.forIn_cons, bind_assoc, bind_of_ok hon]
  rfl

/-- A variable that stands for no term gets its own constant. -/
theorem mkVar_own {e : Env} (hf : e.freshen = false) (hv : e.vars.lookup v = none) {t : SomeTerm}
    (ht : v.Own t) : Env.mkVar v e = .ok t { e with vars := Table.put e.vars v t } := by
  have hname : Env.constName v.name e = .ok v.name e := by
    rw [Env.constName, EnvM.get_bind, hf]
    rfl
  obtain ⟨s, hs, rfl⟩ := ht
  rw [Env.mkVar_of_none hv hname, hs]

/-- Variables are bound one by one, if each of them is bound already or has a constant. -/
theorem bindEach_ok (hf : (w.env side).freshen = false)
    (h : ∀ v ∈ vs, (w.env side).vars.lookup v = none → ∃ t, v.Own t) :
    ∃ vars, bindEach side vs w = .ok PUnit.unit (w.setEnv side { w.env side with vars }) ∧
      Bound vs (w.env side) vars := by
  induction vs generalizing w with
  | nil =>
    refine ⟨(w.env side).vars, ?_, id, nofun, fun _ => id⟩
    show EStateM.Result.ok PUnit.unit w = _
    cases side <;> rfl
  | cons v vs ih =>
    have hrest : ∀ u ∈ vs, (w.env side).vars.lookup u = none → ∃ t, u.Own t :=
      fun u hu => h u (List.mem_cons_of_mem v hu)
    cases hl : (w.env side).vars.lookup v with
    | some t =>
      have hself : w.setEnv side (w.env side) = w := by cases side <;> rfl
      rw [bindEach_cons (Env.mkVar_of_lookup hl), hself]
      obtain ⟨vars, hrun, hb⟩ := ih hf hrest
      refine ⟨vars, hrun, hb.kept, fun {u} hu hnone => hb.own ?_ hnone, fun hu => hb.free fun hm =>
        hu (List.mem_cons_of_mem v hm)⟩
      refine (List.mem_cons.mp hu).resolve_left fun huv => ?_
      subst huv
      cases hl.symm.trans hnone
    | none =>
      obtain ⟨t, ht⟩ := h v List.mem_cons_self hl
      rw [bindEach_cons (mkVar_own hf hl ht)]
      set e : Env := { w.env side with vars := Table.put (w.env side).vars v t }
      have hlookup {u : Var} (hu : u ≠ v) : e.vars.lookup u = (w.env side).vars.lookup u :=
        Table.lookup_put_of_ne _ _ hu
      have hself : e.vars.lookup v = some t := Table.lookup_put_self ..
      obtain ⟨vars, hrun, hb⟩ := ih (w := w.setEnv side e) (by rw [World.env_setEnv]; exact hf)
        fun u hu hnone => by
          rw [World.env_setEnv] at hnone
          refine hrest u hu ((hlookup fun huv => ?_).symm.trans hnone)
          subst huv
          cases hself.symm.trans hnone
      rw [World.env_setEnv] at hrun hb
      have hset : (w.setEnv side e).setEnv side { e with vars } = w.setEnv side { w.env side with vars } := by
        cases side <;> rfl
      refine ⟨vars, hset ▸ hrun, fun {u t'} hu => ?_, fun {u} hu hnone => ?_, fun {u} hu hnone => ?_⟩
      · refine hb.kept ((hlookup fun huv => ?_).trans hu)
        subst huv
        cases hl.symm.trans hu
      · by_cases huv : u = v
        · subst huv
          exact ⟨t, ht, hb.kept hself⟩
        · exact hb.own ((List.mem_cons.mp hu).resolve_left huv) ((hlookup huv).trans hnone)
      · obtain ⟨huv, hu⟩ := not_or.mp (mt List.mem_cons.mpr hu)
        exact hb.free hu ((hlookup huv).trans hnone)

/-- One variable without a constant is enough to fail. -/
theorem bindEach_fails (hf : (w.env side).freshen = false) (hv : v ∈ vs)
    (hl : (w.env side).vars.lookup v = none) (hown : ∀ t, ¬ v.Own t) :
    ∃ f w₁, bindEach side vs w = .error f w₁ := by
  induction vs generalizing w with
  | nil => cases hv
  | cons u vs ih =>
    have hmkVar : (∃ t e, Env.mkVar u (w.env side) = .ok t e ∧ e.freshen = false ∧
        (u ≠ v → e.vars.lookup v = none)) ∨ ∃ f e, Env.mkVar u (w.env side) = .error f e := by
      cases hu : (w.env side).vars.lookup u with
      | some t => exact .inl ⟨t, _, Env.mkVar_of_lookup hu, hf, fun _ => hl⟩
      | none =>
        cases hs : u.type.sort with
        | ok s =>
          refine .inl ⟨_, _, mkVar_own hf hu ⟨s, hs, rfl⟩, hf, fun huv => ?_⟩
          exact (Table.lookup_put_of_ne _ _ (Ne.symm huv)).trans hl
        | error f =>
          have hname : Env.constName u.name (w.env side) = .ok u.name (w.env side) := by
            rw [Env.constName, EnvM.get_bind, hf]
            rfl
          refine .inr ⟨f, w.env side, ?_⟩
          rw [Env.mkVar_of_none hu hname, hs]
    rcases hmkVar with ⟨t, e, hok, hfe, hle⟩ | ⟨f, e, herror⟩
    · rw [bindEach_cons hok]
      have huv : u ≠ v := by
        rintro rfl
        obtain ⟨ht, -⟩ | ⟨n, s, -, -, -, hs, -⟩ := Env.mkVar_ok hok
        · cases hl.symm.trans ht
        · exact hown _ ⟨s, hs, rfl⟩
      refine ih ?_ ((List.mem_cons.mp hv).resolve_left (Ne.symm huv)) ?_
      · rwa [World.env_setEnv]
      · rw [World.env_setEnv]
        exact hle huv
    · refine ⟨f, w.setEnv side e, ?_⟩
      have hon : on side (Env.mkVar u) w = .error f (w.setEnv side e) := by rw [on, herror]
      unfold bindEach
      rw [List.forIn_cons, bind_assoc]
      show EStateM.bind (on side (Env.mkVar u)) _ w = _
      rw [EStateM.bind, hon]

/-- Where variables and those with the new names are bound, they stand for their constants still. -/
theorem Bound.renamed {G : Guise} {F : Frame → Frame → Prop} {e e' : Env} {vs vs' : List Var}
    {vars vars' : Table Var SomeTerm} (hb : Bound vs e vars) (hw : G.Renders G.Own F e e')
    (hb' : Bound vs' e' vars') (hvs : ∀ v, G.ρ v ∈ vs' ↔ v ∈ vs) (v : Var) :
    Option.Rel (G.Own v) (vars.lookup v) (vars'.lookup (G.ρ v)) := by
  have hv := hw.vars v
  cases hl : e.vars.lookup v with
  | some t =>
    cases hl' : e'.vars.lookup (G.ρ v) with
    | none => rw [hl, hl'] at hv; cases hv
    | some t' =>
      rw [hl, hl'] at hv
      rw [hb.kept hl, hb'.kept hl']
      exact hv
  | none =>
    have hl' := (hw.lookup_eq_none v).mpr hl
    by_cases hmem : v ∈ vs
    · obtain ⟨t, ht, hvars⟩ := hb.own hmem hl
      obtain ⟨t', ht', hvars'⟩ := hb'.own ((hvs v).mpr hmem) hl'
      rw [hvars, hvars']
      exact .some ⟨ht, ht'⟩
    · rw [hb.free hmem hl, hb'.free (mt (hvs v).mp hmem) hl']
      exact .none

end Walk

namespace Guise

variable {G : Guise} {T : Var → SomeTerm → SomeTerm → Prop} {F H : Frame → Frame → Prop} {s : Sub} {g : Graph}
  {b : Blk} {n : Option String} {X Z : Var → Prop} {c c' after after' : Constr} {expand : Expand}
  {settle : Settle} {t : String} {u : Unroll} {targets targets' : Table String Constr}

variable (G) in
/-- Copies of blocks are settled alike. -/
def Settling (s : Sub) (g : Graph) (Z : Var → Prop) (settle : Settle) (c c' : Constr) : Prop :=
  ∀ t u, G.Both G.Own (G.Within s g Z) (G.ρ.Alike (s.LiveAt Z t)) (settle G.side c t u) (settle G.side c' t u)

variable (G) in
/-- What the successors of a block ask for is listed in the same order. -/
def Listed (s : Sub) (Z : Var → Prop) (targets targets' : Table String Constr) : Prop :=
  List.Forall₂ (fun p p' => p'.1 = p.1 ∧ G.ρ.Alike (s.LiveAt Z p.1) p.2 p'.2) targets targets'

theorem Listed.lookup (h : G.Listed s Z targets targets') (t : String) :
    Option.Rel (G.ρ.Alike (s.LiveAt Z t)) (targets.lookup t) (targets'.lookup t) := by
  induction h with
  | nil => exact .none
  | @cons p p' _ _ hp _ ih =>
    obtain ⟨k, d⟩ := p
    obtain ⟨k', d'⟩ := p'
    obtain ⟨hk, hd⟩ := hp
    dsimp only at hk hd
    rw [List.lookup_cons, List.lookup_cons, hk]
    cases ht : t == k with
    | true => exact .some (eq_of_beq ht ▸ hd)
    | false => exact ih

namespace Both

/-- Something is done at another place of the frames. -/
theorem placing {A : α → β → Prop} {x : Walk α} {x' : Walk β} {k l : Frame → Frame}
    (hin : ∀ f f', F f f' → H (k f) (l f')) (hout : ∀ f f', H f f' → F f f') (h : G.Both T H A x x') :
    G.Both T F A (do modifyEnv G.side (fun e => { e with frame := k e.frame }); x)
      (do modifyEnv G.side (fun e => { e with frame := l e.frame }); x') := by
  refine ⟨fun {w w'} hw => ?_⟩
  have hrun : Conform A (fun w w' => G.Renders T H (w.env G.side) (w'.env G.side))
      (x (w.setEnv G.side { w.env G.side with frame := k (w.env G.side).frame }))
      (x' (w'.setEnv G.side { w'.env G.side with frame := l (w'.env G.side).frame })) := by
    refine h.run ?_
    rw [World.env_setEnv, World.env_setEnv]
    exact { hw with
      left := hw.left
      right := hw.right
      frame := hin _ _ hw.frame }
  show Conform A _ (x _) (x' _)
  revert hrun
  generalize x _ = r
  generalize x' _ = r'
  rintro (⟨ha, hw⟩ | _)
  · exact .ok ha { hw with
      left := hw.left
      right := hw.right
      frame := hout _ _ hw.frame }
  · exact .error

variable (hG : G.Fair)

include hG

/-- The variables of the subroutine are bound, in whatever order. -/
theorem bindVars (s : Sub) :
    G.Both G.Own F (fun _ _ => True) (Walk.bindVars G.side s) (Walk.bindVars G.side (G.ρ.sub s)) := by
  have hmem {s : Sub} {v : Var} : v ∈ sortByName s.vars ↔ v ∈ s.vars := List.mem_mergeSort
  refine ⟨fun {w w'} hw => ?_⟩
  obtain ⟨hf, hf'⟩ := hw.setting Env.freshen fun _ _ => rfl
  rw [hG.verbatim] at hf hf'
  show Conform _ _ (bindEach G.side (sortByName s.vars) w) (bindEach G.side (sortByName (G.ρ.sub s).vars) w')
  by_cases hall : ∀ v ∈ s.vars, (w.env G.side).vars.lookup v = none → ∃ t, v.Own t
  · have hall' : ∀ u ∈ sortByName (G.ρ.sub s).vars, (w'.env G.side).vars.lookup u = none → ∃ t, u.Own t := by
      intro u hu hl
      obtain ⟨v, hv, rfl⟩ := Renaming.mem_vars_sub.mp (hmem.mp hu)
      exact exists_own.mpr (hall v hv ((hw.lookup_eq_none v).mp hl))
    obtain ⟨vars, hrun, hb⟩ := bindEach_ok hf fun v hv => hall v (hmem.mp hv)
    obtain ⟨vars', hrun', hb'⟩ := bindEach_ok hf' hall'
    rw [hrun, hrun']
    refine .ok True.intro ?_
    rw [World.env_setEnv, World.env_setEnv]
    refine { hw with
      left := hw.left
      right := hw.right
      vars := hb.renamed hw hb' fun v => ?_ }
    rw [hmem, hmem, Renaming.mem_vars_sub]
    exact ⟨fun ⟨u, hu, huv⟩ => Renaming.inj.mp huv ▸ hu, fun hv => ⟨v, hv, rfl⟩⟩
  · push Not at hall
    obtain ⟨v, hv, hl, hnot⟩ := hall
    have hv' : G.ρ v ∈ sortByName (G.ρ.sub s).vars := hmem.mpr (Renaming.mem_vars_sub.mpr ⟨v, hv, rfl⟩)
    obtain ⟨f, w₁, hrun⟩ := bindEach_fails hf (hmem.mpr hv) hl hnot
    obtain ⟨f', w₁', hrun'⟩ := bindEach_fails hf' hv' ((hw.lookup_eq_none v).mpr hl) fun t ht =>
      (exists_own.mp ⟨t, ht⟩).elim hnot
    rw [hrun, hrun']
    exact .error

/-! ### Copies of blocks -/

/-- A block at the place of a copy of it. -/
theorem visitBlock (hx : G.Expanding expand) (hs : G.Has s) {q : Blk × Option String}
    (hq : s.at? t = some q) (hc : G.ρ.Alike (s.Live Z (behind? q) []) after after') :
    G.Both G.Own (G.Placed s g Z q.1) (G.ρ.Alike (s.LiveAt Z t)) (Walk.visitBlock expand G.side after q.1)
      (Walk.visitBlock expand G.side after' (G.ρ.blk q.1)) := by
  obtain ⟨hb, rfl⟩ : q.1 ∈ s.blks ∧ q.1.tid = t := Sub.mem_of_at? hq
  refine env fun e e' h => ?_
  have hkept := h.frame.precond q.1.tid e.frame.unroll
  have hpre : e'.precond? (G.ρ.blk q.1).tid e'.frame.unroll = e'.frame.preconds[(q.1.tid, e.frame.unroll)]? := by
    rw [h.frame.unroll]
    rfl
  rw [hpre, Env.precond?]
  revert hkept
  cases e.frame.preconds[(q.1.tid, e.frame.unroll)]? <;>
    cases e'.frame.preconds[(q.1.tid, e.frame.unroll)]? <;> intro hkept
  case some.some =>
    cases hkept with
    | some hkept => exact pure hkept
  case none.some => cases hkept
  case some.none => cases hkept
  case none.none =>
  refine placing (H := G.Placed s g Z q.1) (k := fun f => { f with block := some q.1.tid })
    (l := fun f => { f with block := some q.1.tid })
    (fun _ _ hf => ⟨⟨hf.graph, hf.graph', hf.retPost, hf.precond⟩, hf.target, hf.named, hf.pred, hf.unroll⟩)
    (fun _ _ hf => hf) ?_
  rw [Renaming.elts_blk]
  refine (visitElts hG hx hs hb (fun _ he => he) hc).bind fun pre pre' hpre => ?_
  have hlive : G.ρ.Alike (s.LiveAt Z q.1.tid) pre pre' :=
    hpre.mono fun _ _ hv => hv.imp_left fun h => ⟨q, hq, h⟩
  refine placing (H := G.Placed s g Z q.1)
    (k := fun f => { f with preconds := f.preconds.insert (q.1.tid, f.unroll) pre })
    (l := fun f => { f with preconds := f.preconds.insert (q.1.tid, f.unroll) pre' })
    (fun f f' hf => ⟨⟨hf.graph, hf.graph', hf.retPost, fun t u => ?_⟩, hf.target, hf.named, hf.pred, hf.unroll⟩)
    (fun _ _ hf => hf) (pure hlive)
  dsimp only
  rw [hf.unroll, Std.HashMap.getElem?_insert, Std.HashMap.getElem?_insert]
  split
  · rename_i hkey
    cases eq_of_beq hkey
    exact .some hlive
  · exact hf.precond t u

omit hG in
theorem settleForward (hset : G.Settling s g Z settle c c') (succs : List String) :
    G.Both G.Own (G.Within s g Z) (fun _ _ => True) (Walk.settleForward settle G.side g c u succs)
      (Walk.settleForward settle G.side (g.renamed G.ρ) c' u succs) := by
  induction succs with
  | nil => exact pure True.intro
  | cons t succs ih => exact (hset ..).bind fun _ _ _ => ih

omit hG in
theorem loopPre (hset : G.Settling s g Z settle c c') (header : String) (u : Unroll) :
    G.Both G.Own (G.Within s g Z) (G.ρ.Alike (s.LiveAt Z header)) (Walk.loopPre settle G.side c header u)
      (Walk.loopPre settle G.side c' header u) := by
  refine env fun e e' h => ?_
  obtain ⟨hbound, hbound'⟩ := h.setting Env.unrollBound fun _ _ => rfl
  rw [hbound, hbound']
  exact ite (fun _ => (note ..).bind fun _ _ _ => trivial) fun _ => hset ..

omit hG in
theorem successorPres (hset : G.Settling s g Z settle c c') (succs : List String) :
    G.Both G.Own (G.Within s g Z) (fun targets targets' => G.Listed s Z targets targets' ∧ targets.keys = succs)
      (Walk.successorPres settle G.side g c t u succs)
      (Walk.successorPres settle G.side (g.renamed G.ρ) c' t u succs) := by
  induction succs with
  | nil => exact pure ⟨.nil, rfl⟩
  | cons t' succs ih =>
    have hrest {d d' : Constr} (hd : G.ρ.Alike (s.LiveAt Z t') d d') :
        G.Both G.Own (G.Within s g Z)
          (fun targets targets' => G.Listed s Z targets targets' ∧ targets.keys = t' :: succs)
          (do return (t', d) :: (← Walk.successorPres settle G.side g c t u succs))
          (do return (t', d') :: (← Walk.successorPres settle G.side (g.renamed G.ρ) c' t u succs)) :=
      ih.bind fun _ _ h => pure ⟨.cons ⟨rfl, hd⟩ h.1, congrArg (t' :: ·) h.2⟩
    have hkept : G.Both G.Own (G.Within s g Z) (G.ρ.Alike (s.LiveAt Z t'))
        (do Walk.present ((← Walk.env G.side).precond? t' (g.restrict u t')))
        (do Walk.present ((← Walk.env G.side).precond? t' (g.restrict u t'))) :=
      env fun _ _ h => present (h.frame.precond ..)
    rw [Walk.successorPres, Walk.successorPres]
    exact ite (p := g.isBackEdge t t' = true) (fun _ => (loopPre hset t' u).bind fun _ _ hd => hrest hd)
      fun _ => hkept.bind fun _ _ hd => hrest hd

omit hG in
/-- Behind the last jump of a block. -/
theorem trailing (hg : Graph.ofSub s = .ok g) (ht : G.Listed s Z targets targets') (t : String) :
    G.Both G.Own (G.Within s g Z)
      (fun d d' => ∀ q, s.at? t = some q → G.ρ.Alike (s.Live Z (behind? q) []) d d')
      (Walk.trailing G.side g targets t) (Walk.trailing G.side (g.renamed G.ρ) targets' t) := by
  have hnext : (g.fallthrough.lookup t).join = (s.at? t).bind behind? := by
    rw [(Graph.of_ofSub hg).fallthrough]
    cases s.at? t <;> rfl
  unfold Walk.trailing
  rw [show (g.renamed G.ρ).fallthrough = g.fallthrough from rfl, hnext]
  cases hn : (s.at? t).bind behind? with
  | some next =>
    refine (present (ht.lookup next)).mono fun _ _ h q hq => h.mono fun _ _ hv => hv.imp_left ?_
    rw [hq] at hn
    rw [show behind? q = some next from hn]
    exact fun ⟨_, hq, hneeds⟩ => .behind hq hneeds
  | none =>
    refine env fun e e' h => ?_
    obtain ⟨d, d', hd, hd', halike⟩ := h.frame.retPost
    rw [hd, hd']
    exact pure fun _ _ => halike.mono fun _ _ hv => .inr hv

theorem settleBlock (hx : G.Expanding expand) (hs : G.Has s) (hg : Graph.ofSub s = .ok g)
    (hset : G.Settling s g Z settle c c') (t : String) (u : Unroll) :
    G.Both G.Own (G.Within s g Z) (G.ρ.Alike (s.LiveAt Z t)) (Walk.settleBlock settle expand G.side g c t u)
      (Walk.settleBlock settle expand G.side (g.renamed G.ρ) c' t u) := by
  have hof := Graph.of_ofSub hg
  refine (successorPres hset (g.succsOf t)).bind fun targets targets' ht => ?_
  refine (trailing hg ht.1 t).bind fun after after' hafter => ?_
  rw [Graph.lookup_renamed, hof.blocks]
  cases hq : s.at? t with
  | none => exact throw _ _
  | some q =>
    refine placing (H := G.Placed s g Z q.1)
      (k := fun f => { f with targets := targets, pred := g.predFor t u, unroll := u })
      (l := fun f => { f with targets := targets', pred := g.predFor t u, unroll := u })
      (fun f f' hf => ?_) (fun _ _ hf => hf.toWithin) (visitBlock hG hx hs hq (hafter q hq))
    refine ⟨⟨hf.graph, hf.graph', hf.retPost, hf.precond⟩, ht.1.lookup, fun hj hjt ht' => ?_, rfl, rfl⟩
    exact Table.mem_keys_iff.mp (ht.2 ▸ hof.mem_succsOf_of_jump hq hj hjt ht')

end Both

/-- The depth of a walk does not depend on names. -/
theorem depthBound_renamed {e e' : Env} (h : G.Renders T F e e') (s : Sub) :
    depthBound e' (G.ρ.sub s) = depthBound e s := by
  obtain ⟨hbound, hbound'⟩ := h.setting Env.unrollBound fun _ _ => rfl
  have hsubs : e.settings.subs = G.base.subs := congrArg Env.subs h.left
  have hsubs' : e'.settings.subs = G.base.subs.map G.ρ.sub := congrArg Env.subs h.right
  have hcopies (s : Sub) (bound : Int) : copyBound bound (G.ρ.sub s) = copyBound bound s := by
    rw [copyBound, copyBound, show (G.ρ.sub s).blks = s.blks.map G.ρ.blk from rfl, List.length_map]
  rw [depthBound, depthBound, hbound, hbound', show e.subs = _ from hsubs, show e'.subs = _ from hsubs',
    ← List.map_cons, List.foldl_map, List.length_map]
  simp only [hcopies]

section

variable (hG : G.Fair)

include hG

/-- A subroutine of which the frames keep nothing yet. What it reads has been assigned, so that only those
variables count that count behind it. -/
theorem enterSub {w w' : World} (hs : G.Has s) (hset : ∀ g, Graph.ofSub s = .ok g → G.Settling s g Z settle c c')
    (hc : G.ρ.Alike Z c c') (hroot : (w.env G.side).frame.root ≠ some (s.tid, c.id))
    (hroot' : (w'.env G.side).frame.root ≠ some (s.tid, c'.id))
    (hw : G.Renders G.Own (fun _ _ => True) (w.env G.side) (w'.env G.side)) :
    Conform (G.ρ.Alike Z) (fun w w' => G.Renders G.Own (fun _ _ => True) (w.env G.side) (w'.env G.side))
      (Walk.enterSub settle G.side c s w) (Walk.enterSub settle G.side c' (G.ρ.sub s) w') := by
  -- no preconditions are kept for the subroutine and what holds behind it
  let F (f f' : Frame) : Prop := f.root ≠ some (s.tid, c.id) ∧ f'.root ≠ some (s.tid, c'.id)
  have hattached : G.Renders G.Own F ((attached w G.side).env G.side) ((attached w' G.side).env G.side) := by
    rw [attached, attached, World.env_setEnv, World.env_setEnv]
    exact { hw with
      left := hw.left
      right := hw.right
      frame := ⟨hroot, hroot'⟩ }
  cases hg : Graph.ofSub s with
  | error f =>
    have hg' : Graph.ofSub (G.ρ.sub s) = .error f := by rw [Graph.ofSub_renamed, hg]; rfl
    rw [enterSub_eq, enterSub_eq, hg, hg']
    exact .error
  | ok g =>
  have hg' : Graph.ofSub (G.ρ.sub s) = .ok (g.renamed G.ρ) := by rw [Graph.ofSub_renamed, hg]; rfl
  have hbind := (Both.bindVars (F := F) hG s).run hattached
  rw [enterSub_eq, enterSub_eq, hg, hg']
  show Conform _ _ (EStateM.bind (bindVars G.side s) (fun _ => opening settle G.side c s g) (attached w G.side))
    (EStateM.bind (bindVars G.side (G.ρ.sub s))
      (fun _ => opening settle G.side c' (G.ρ.sub s) (g.renamed G.ρ)) (attached w' G.side))
  unfold EStateM.bind
  revert hbind
  generalize bindVars G.side s (attached w G.side) = r
  generalize bindVars G.side (G.ρ.sub s) (attached w' G.side) = r'
  rintro (@⟨_, _, w₁, w₁', -, h₁⟩ | _)
  swap
  · exact .error
  dsimp only
  rw [opening_eq, opening_eq]
  have hopened : G.Renders G.Own (G.Within s g Z) ((opened w₁ G.side s c g).env G.side)
      ((opened w₁' G.side (G.ρ.sub s) c' (g.renamed G.ρ)).env G.side) := by
    rw [opened, opened, World.env_setEnv, World.env_setEnv]
    refine { h₁ with
      left := h₁.left
      right := h₁.right
      frame := ⟨rfl, rfl, ⟨c, c', rfl, rfl, hc⟩, fun t u => ?_⟩ }
    dsimp only
    rw [show (G.ρ.sub s).tid = s.tid from rfl, if_neg h₁.frame.1, if_neg h₁.frame.2,
      Std.HashMap.getElem?_empty]
    exact .none
  have hrun := (hset g hg g.entry []).run hopened
  rw [show (g.renamed G.ρ).entry = g.entry from rfl]
  revert hrun
  generalize settle G.side c g.entry [] (opened w₁ G.side s c g) = r
  generalize settle G.side c' g.entry [] (opened w₁' G.side (G.ρ.sub s) c' (g.renamed G.ρ)) = r'
  rintro (@⟨_, _, w₂, w₂', hpre, h₂⟩ | _)
  swap
  · exact .error
  refine .ok (hpre.mono fun v hm hv => hv.resolve_left ?_) ?_
  · exact hG.settles hs hm _ (Graph.of_ofSub hg).entry
  · rw [closed, closed, World.env_setEnv, World.env_setEnv]
    exact { h₂ with
      left := h₂.left
      right := h₂.right
      frame := True.intro }

/-- Settling a copy of a block comes to the same precondition, and the same is kept. -/
theorem settleNode (n : Nat) (hs : G.Has s) (hg : Graph.ofSub s = .ok g) (c c' : Constr) :
    G.Settling s g Z (Walk.settleNode n) c c' := by
  induction n generalizing s g Z c c' with
  | zero => exact fun _ _ => .throw _ _
  | succ n ih =>
    intro t u
    have hx : G.Expanding (Walk.enterSub (Walk.settleNode n)) :=
      ⟨fun hs hc hr hr' hw => enterSub hG hs (fun g hg => ih hs hg _ _) hc (by rw [hr]; nofun)
        (by rw [hr']; nofun) hw⟩
    refine .env fun e e' h => ?_
    rw [h.frame.graph, h.frame.graph']
    refine .bind (A := fun a a' => g = a ∧ g.renamed G.ρ = a') (.present (.some ⟨rfl, rfl⟩)) ?_
    rintro _ _ ⟨rfl, rfl⟩
    refine .env fun e e' h => ?_
    have hkept := h.frame.precond t (g.restrict u t)
    rw [Env.precond?, Env.precond?, show (g.renamed G.ρ).restrict u t = g.restrict u t from rfl]
    revert hkept
    cases e.frame.preconds[(t, g.restrict u t)]? <;>
      cases e'.frame.preconds[(t, g.restrict u t)]? <;> intro hkept
    case some.some =>
      cases hkept with
      | some hkept => exact .pure hkept
    case none.some => cases hkept
    case some.none => cases hkept
    case none.none =>
    have hset : G.Settling s g Z (Walk.settleNode n) c c' := ih hs hg c c'
    exact (Both.settleForward hset (g.forward t)).bind fun _ _ _ => .settleBlock hG hx hs hg hset t _

/-- The precondition of a subroutine is the same as in the program with other names, as far as those
variables count that count behind it. -/
theorem visitSub {w w' : World} (hs : G.Has s) (hc : G.ρ.Alike Z c c')
    (hroot : (w.env G.side).frame.root ≠ some (s.tid, c.id))
    (hroot' : (w'.env G.side).frame.root ≠ some (s.tid, c'.id))
    (hw : G.Renders G.Own (fun _ _ => True) (w.env G.side) (w'.env G.side)) :
    Conform (G.ρ.Alike Z) (fun w w' => G.Renders G.Own (fun _ _ => True) (w.env G.side) (w'.env G.side))
      (Walk.visitSub G.side c s w) (Walk.visitSub G.side c' (G.ρ.sub s) w') := by
  have hdepth := depthBound_renamed hw s
  show Conform _ _ (Walk.enterSub (Walk.settleNode (depthBound (w.env G.side) s)) G.side c s w)
    (Walk.enterSub (Walk.settleNode (depthBound (w'.env G.side) (G.ρ.sub s))) G.side c' (G.ρ.sub s) w')
  rw [hdepth]
  exact enterSub hG hs (fun g hg => settleNode hG _ hs hg _ _) hc hroot hroot' hw

end

end Guise

end Precond

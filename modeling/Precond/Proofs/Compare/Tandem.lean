import Precond.Proofs.Compare.Effects
import Precond.Proofs.Walk.Keeps
import Precond.Proofs.Walk.Lockstep

/-! The elements of a block in two walks side by side. What the first program takes for granted of the
parts of an expression is what the second one has to establish of them (`Duo.Abreast.translateChecked`),
so that constraints behind an element that are paired are paired before it (`Duo.Abreast.visitElt`).

Two walks of a subroutine side by side. Both cut the same edges and settle the same copies of blocks,
so that what they keep of them is paired (`Duo.Abreast.settleNode`), and from a start where nothing is
kept they come to paired preconditions (`Duo.visitSub_pair`). -/

namespace Precond

open IR Precond.Flow Walk

theorem IR.Phi.known_first {p : Phi} (h : (Elt.phi p).known) : p.first.known :=
  List.all_eq_true.mp h _ (List.head_mem _)

theorem IR.Phi.known_along {p : Phi} (h : (Elt.phi p).known) {pred : String} {e : Exp}
    (he : p.along? pred = some e) : e.known :=
  List.all_eq_true.mp h _ (List.mem_reverse.mp (Table.mem_of_lookup he))

namespace Duo

variable {D : Duo} {side : Side} {e e' : Env} {c c' d d' : Constr}

/-! ### Conditions -/

/-- Conditions of an expression in both programs: if what the first one takes for granted holds, so does
what the second one has to establish, unless it is spared. The first one has nothing to establish. -/
structure Guards (hs hs' : List Hook) : Prop where
  after (d : Duty) : select hs d .after = []
  after' (d : Duty) : select hs' d .after = []
  verified (m : Model) : ((select hs .verify .before).filter (unspared D.spared)).all (·.term.holds m)
  granted (m₁ m₂ : Model) : D.mirror.Shows m₁ m₂ → (select hs .assume .before).all (·.term.holds m₁) →
    ((select hs' .verify .before).filter (unspared D.spared)).all (·.term.holds m₂)

theorem select_filter (p : Hook → Bool) (hs : List Hook) (d : Duty) (pl : Placement) :
    select (hs.filter p) d pl = (select hs d pl).filter p := by
  rw [select, select, List.filter_filter, List.filter_filter]
  exact List.filter_congr fun h _ => Bool.and_comm ..

/-- Rules that take conditions for granted ask for nothing to be established. -/
theorem asks_verify {r : Regions} {rule : SideRule} {σ : Store} {e : Exp} {b : Bool}
    (hr : rule.trusts) : ¬ rule.Asks r σ e .verify b := by
  rintro ⟨⟩ <;> cases hr

/-- What the second program has to establish of a part, the first one takes for granted. -/
theorem Fair.counterpart (hD : D.Fair) {σ₁ σ₂ : Store} (hσ : σ₂.Agrees σ₁) {e : Exp}
    (h : Asked ⟨(D.base .mod).stack, (D.base .mod).heap⟩ (unsparedRules (D.base .mod).sideRules) σ₂ e
      .verify false) :
    Asked ⟨(D.base .orig).stack, (D.base .orig).heap⟩ (D.base .orig).sideRules σ₁ e .assume false := by
  obtain ⟨rule, hrule, hasks⟩ := h
  obtain ⟨hmem, hne⟩ := List.mem_filter.mp hrule
  rw [hD.stack, hD.heap] at hasks
  generalize hb : false = b at hasks ⊢
  cases hasks with
  | nonNull hacc hx =>
    obtain ⟨y, hy, hxy⟩ := hx.agree hσ
    exact ⟨_, hD.nonNull hmem, .nonNull hacc (hxy.word ▸ hy)⟩
  | validAccess hacc hx =>
    obtain ⟨y, hy, hxy⟩ := hx.agree hσ
    exact ⟨_, hD.validAccess hmem, .validAccess hacc (hxy.word ▸ hy)⟩
  | nonZeroDivisor => exact absurd rfl (of_decide_eq_true hne)

namespace Abreast

theorem translateChecked (hD : D.Fair) {x : Exp} (hx : x.known) :
    D.Abreast (fun p p' => D.Alike p.1 p'.1 ∧ D.Guards p.2 p'.2) (Walk.translateChecked .orig x)
      (Walk.translateChecked .mod x) := by
  refine ⟨fun {w v w₁ v₁ p p'} hf hp hp' => ?_⟩
  obtain ⟨t, hs⟩ := p
  obtain ⟨t', hs'⟩ := p'
  have hlocal : ∀ r ∈ (w.env .orig).sideRules, r.isLocal := hf.orig.sideRules ▸ hD.isLocal .orig
  have hlocal' : ∀ r ∈ (v.env .mod).sideRules, r.isLocal := hf.mod.sideRules ▸ hD.isLocal .mod
  obtain ⟨hdrawn, hstands, htells⟩ := translateChecked_tells hx hlocal hp
  obtain ⟨hdrawn', hstands', hbefore', htells'⟩ :=
    translateChecked_spares (hf.mod.sideRules ▸ hD.spares) hlocal' hx hp'
  rw [hf.orig.vars] at hstands htells
  rw [hf.mod.vars] at hstands' htells'
  rw [hf.orig.regions, hf.orig.sideRules] at htells
  rw [hf.mod.regions, hf.mod.sideRules] at htells'
  refine ⟨hf.drawn hdrawn hdrawn', fun m₁ m₂ hm => ?_, ?_⟩
  · obtain ⟨y, hy, hxy⟩ := (hstands _ (.refl _) m₁).agree hm.store
    rwa [hy.unique hx (hstands' _ (.refl _) m₂)] at hxy
  · refine ⟨htells.select_after, fun d => ?_, fun m => ?_, fun m₁ m₂ hm hall => ?_⟩
    · refine List.filter_eq_nil_iff.mpr fun k hk hsel => ?_
      have hafter := of_decide_eq_true (Bool.and_eq_true_iff.mp hsel).2
      cases (hbefore' k hk).symm.trans hafter
    · have hall := (htells.all_iff (.refl _) m .verify).mpr <| Exp.not_somewhere
        fun σ y ⟨r, hr, hasks⟩ => asks_verify (hD.trusts r hr) hasks
      exact List.all_eq_true.mpr fun k hk => List.all_eq_true.mp hall k (List.mem_filter.mp hk).1
    · rw [← select_filter]
      refine (htells'.all_iff (.refl _) m₂ .verify).mpr fun hdemands => ?_
      refine (htells.all_iff (.refl _) m₁ .assume).mp hall ?_
      exact hdemands.agree hm.store.symm fun σ σ' y hσ => hD.counterpart hσ

/-- Under conditions of an expression in both programs. -/
theorem guard {hs hs' : List Hook} (hg : D.Guards hs hs') (hd : D.Pair d d') :
    D.Abreast D.Pair (Walk.guard (select hs .assume .before) (select hs .verify .before) d)
      (Walk.guard (select hs' .assume .before) (select hs' .verify .before) d') := by
  refine (makes (guard_spares D.spared) (guard_spares D.spared)).mono ?_
  rintro c c' ⟨⟨hc, hsay⟩, hc', hsay'⟩
  refine hd.guarded hc hc' (fun m => (hsay m).trans ?_) hsay' hg.granted
  rw [hg.verified m, Bool.true_and]
  rfl

/-! ### Assignments -/

/-- Where neither program stops at once. -/
theorem past {p q : Prop} [Decidable p] [Decidable q] {f f' : Fault} {x : Walk α} {x' : Walk β}
    {A : α → β → Prop} (h : ¬ p → ¬ q → D.Abreast A x x') :
    D.Abreast A (if p then MonadExcept.throw f else x) (if q then MonadExcept.throw f' else x') := by
  refine ⟨fun hf ha hb => ?_⟩
  split at ha
  · cases ha
  · split at hb
    · cases hb
    · exact (h ‹_› ‹_›).run hf ha hb

theorem assign (hD : D.Fair) {lhs : Var} {rhs : Exp} (hx : rhs.known) (hv : D.Shared lhs)
    (hc : D.Pair c c') :
    D.Abreast D.Pair (Walk.assign .orig c lhs rhs) (Walk.assign .mod c' lhs rhs) := by
  refine (translateChecked hD hx).bind fun ⟨new, hs⟩ ⟨new', hs'⟩ ⟨hnew, hg⟩ => ?_
  refine (mkVar hD hv).bind fun old old' hold => past fun hsort hsort' => ?_
  dsimp only
  rw [hg.after, hg.after, hg.after', hg.after']
  have hmoving : D.Moving (some lhs) (old, new) (old', new') :=
    .var hold hnew (not_not.mp hsort) (not_not.mp hsort')
  exact (pure hc).bind fun c c' hc => (show D.Abreast D.Pair (Walk.substitute c [old] [new])
    (Walk.substitute c' [old'] [new']) from replaceAll (.cons hmoving .nil) (List.nodup_singleton _) hc).bind
      fun d d' hd => guard hg hd

theorem visitPhi (hD : D.Fair) {p : Phi} (hk : (Elt.phi p).known) (hv : D.Shared p.lhs)
    (hc : D.Pair c c') : D.Abreast D.Pair (Walk.visitPhi .orig c p) (Walk.visitPhi .mod c' p) := by
  refine env fun e e' hf => ?_
  rw [hf.frames.pred]
  split
  · rename_i value hvalue
    obtain ⟨pred, -, hpred⟩ := Option.bind_eq_some_iff.mp hvalue
    exact assign hD (Phi.known_along hk hpred) hv hc
  · exact (note ..).bind fun _ _ _ => assign hD (Phi.known_first hk) hv hc

/-! ### Jumps -/

theorem targetPre (l : Label) (hc : D.Pair c c') :
    D.Abreast D.Pair (Walk.targetPre .orig l c) (Walk.targetPre .mod l c') := by
  cases l with
  | direct t =>
    refine env fun e e' hf => pure ?_
    have ht := hf.frames.targets t
    generalize e.frame.targets.lookup t = o at ht
    generalize e'.frame.targets.lookup t = o' at ht
    cases ht with
    | some h => exact h
    | none => exact hc
  | indirect => exact pure hc

theorem returnPre (hc : D.Pair c c') :
    D.Abreast D.Pair (Walk.returnPre .orig c) (Walk.returnPre .mod c') := by
  refine env fun e e' hf => pure ?_
  have hr := hf.frames.retPost
  generalize e.frame.retPost = o at hr
  generalize e'.frame.retPost = o' at hr
  cases hr with
  | some h => exact h
  | none => exact hc

variable {expand : Expand}

/-- A call of a known function is not expanded. -/
theorem called (hD : D.Fair) (tid : String) {target : Label}
    (ht : ∀ n, PairRel.calleeName (D.base .orig) target = some n → n ∈ D.callees) (hc : D.Pair c c') :
    D.Abreast D.Pair (Walk.called expand .orig c tid target) (Walk.called expand .mod c' tid target) := by
  cases target with
  | indirect => exact (note ..).bind fun _ _ _ => pure hc
  | direct name =>
    have hrest {s : Sub} (hs : s.name ∈ D.callees) :
        D.Abreast D.Pair (dispatch expand .orig c tid s) (dispatch expand .mod c' tid s) := by
      refine (handler hD hs).bind fun h h' hh => ?_
      obtain ⟨heq, hrule, hcallee⟩ := hh
      subst heq
      obtain ⟨rule, callee⟩ := h'
      have hsummary := summarize hD hrule hcallee tid hc
      cases rule with
      | inline => exact absurd hrule (by simp [usual])
      | _ => exact hsummary
    refine env fun e e' hf => ?_
    have hfind : e.findSub? (.direct name) = (D.base .orig).findSub? (.direct name) := by
      rw [Env.findSub?, Env.findSub?, hf.orig.subs]
    have hfind' : e'.findSub? (.direct name) = (D.base .orig).findSub? (.direct name) := by
      rw [Env.findSub?, Env.findSub?, hf.mod.subs, hD.subs]
    have hname := ht _ rfl
    rw [Env.canonical, hD.renames] at hname
    dsimp only
    rw [hfind, hfind']
    revert hname
    cases (D.base .orig).findSub? (.direct name) with
    | some s => exact fun hname => hrest hname
    | none => exact fun hname => (note ..).bind fun _ _ _ => hrest hname

theorem visitCall (hD : D.Fair) (tid : String) {target : Label} (ret : Option Label)
    (ht : ∀ n, PairRel.calleeName (D.base .orig) target = some n → n ∈ D.callees) (hc : D.Pair c c') :
    D.Abreast D.Pair (Walk.visitCall expand .orig c tid target ret)
      (Walk.visitCall expand .mod c' tid target ret) := by
  cases ret with
  | none => exact (returnPre hc).bind fun after after' ha => called hD tid ht ha
  | some l => exact (targetPre l hc).bind fun after after' ha => called hD tid ht ha

variable {b : Blk} {j : Jump}

theorem jumpPre (hD : D.Fair) (hb : b ∈ D.sub.blks) (hj : j ∈ b.jumps) (hc : D.Pair c c') :
    D.Abreast D.Pair (Walk.jumpPre expand .orig c j) (Walk.jumpPre expand .mod c' j) := by
  obtain ⟨kind, cond, tid⟩ := j
  cases kind with
  | goto target =>
    cases target with
    | direct t => exact targetPre (.direct t) hc
    | indirect => exact (note ..).bind fun _ _ _ => pure hc
  | call target ret =>
    refine visitCall hD tid ret (fun n hn => List.mem_flatMap.mpr ⟨b, hb, ?_⟩) hc
    exact List.mem_filterMap.mpr ⟨_, hj, hn⟩
  | ret => exact returnPre hc
  | interrupt number ret => exact targetPre (.direct ret) hc

theorem branched (hD : D.Fair) (hk : j.cond.known) (hc : D.Pair c c') (hd : D.Pair d d') :
    D.Abreast D.Pair (Walk.branched .orig c d j) (Walk.branched .mod c' d' j) := by
  refine ite Iff.rfl (fun _ _ => pure hc) fun _ _ => ?_
  refine (translateChecked hD hk).bind fun ⟨t, hs⟩ ⟨t', hs'⟩ ⟨ht, hg⟩ => ?_
  refine (lift (A := fun p p' => ∀ m₁ m₂, D.mirror.Shows m₁ m₂ → p.holds m₁ = p'.holds m₂)
    fun p p' hp hp' m₁ m₂ hm => ht.condition hp hp' hm).bind fun p p' hp => ?_
  have hbranch : D.Abreast D.Pair (Walk.mkBranch j.tid p c d) (Walk.mkBranch j.tid p' c' d') := by
    refine (makes (Q := fun x => ∃ i, x = .branch i j.tid p c d)
      (R := fun x => ∃ i, x = .branch i j.tid p' c' d') (fun h => ?_) fun h => ?_).mono ?_
    · obtain ⟨rfl, rfl⟩ := mkBranch_ok h
      exact ⟨fun side => by cases side <;> rfl, _, rfl⟩
    · obtain ⟨rfl, rfl⟩ := mkBranch_ok h
      exact ⟨fun side => by cases side <;> rfl, _, rfl⟩
    · rintro _ _ ⟨⟨i, rfl⟩, i', rfl⟩
      exact hc.branch hd hp
  rw [hg.after, hg.after, hg.after', hg.after', List.append_nil, List.append_nil, List.append_nil,
    List.append_nil]
  exact hbranch.bind fun x x' hx => guard hg hx

/-! ### Blocks -/

theorem visitElt (hD : D.Fair) (hb : b ∈ D.sub.blks) {elt : Elt} (he : elt ∈ b.elts) (hc : D.Pair c c') :
    D.Abreast D.Pair (Walk.visitElt expand .orig c elt) (Walk.visitElt expand .mod c' elt) := by
  have hknown := hD.known hb he
  have hvars := Elt.vars_subset hb he
  cases elt with
  | define d => exact assign hD hknown (.inl (hvars List.mem_cons_self)) hc
  | phi p => exact visitPhi hD hknown (.inl (hvars List.mem_cons_self)) hc
  | jump j =>
    refine env fun e e' hf => ?_
    have hforced {e : Env} {side : Side} (h : D.Follows side e) : forced? e j = none := by
      rw [forced?, h.reach, hD.reach]
      rfl
    dsimp only
    rw [hforced hf.orig, hforced hf.mod]
    exact (jumpPre hD hb (Blk.mem_jumps he) hc).bind fun after after' ha => branched hD hknown ha hc

theorem visitElts (hD : D.Fair) (hb : b ∈ D.sub.blks) {elts : List Elt} (hes : elts ⊆ b.elts)
    (hc : D.Pair c c') :
    D.Abreast D.Pair (Walk.visitElts expand .orig c elts) (Walk.visitElts expand .mod c' elts) := by
  induction elts with
  | nil => exact pure hc
  | cons elt elts ih =>
    obtain ⟨helt, hes⟩ := List.cons_subset.mp hes
    exact (ih hes).bind fun d d' hd => visitElt hD hb helt hd

theorem visitBlock (hD : D.Fair) (hb : b ∈ D.sub.blks) (hc : D.Pair c c') :
    D.Abreast D.Pair (Walk.visitBlock expand .orig c b) (Walk.visitBlock expand .mod c' b) := by
  refine env fun e e' hf => ?_
  dsimp only
  have hkept := hf.frames.preconds (b.tid, e.frame.unroll)
  rw [Env.precond?, Env.precond?, hf.frames.unroll]
  generalize e.frame.preconds[(b.tid, e.frame.unroll)]? = o at hkept ⊢
  generalize e'.frame.preconds[(b.tid, e.frame.unroll)]? = o' at hkept ⊢
  cases hkept with
  | some h => exact pure h
  | none =>
    refine (move fun e e' hf => hf.moved ?_ ..).bind fun _ _ _ => ?_
    · exact { hf.frames with }
    refine (visitElts hD hb (List.Subset.refl _) hc).bind fun pre pre' hpre => ?_
    refine (move fun e e' hf => hf.moved ?_ ..).bind fun _ _ _ => pure hpre
    exact hf.frames.settled hpre b.tid

end Abreast

end Duo

end Precond

namespace Precond

open IR Precond.Flow Walk

namespace Duo

variable {D : Duo} {settle : Settle} {expand : Expand} {c c' d d' : Constr} {g : Graph} {t : String}
  {u : Unroll} {targets targets' : Table String Constr} {w v w₁ v₁ : World} {side : Side}

/-- What settles copies of blocks settles those of both programs alike. -/
def Settles (D : Duo) (settle : Settle) : Prop :=
  ∀ {c c'}, D.Pair c c' → ∀ t u, D.Abreast D.Pair (settle .orig c t u) (settle .mod c' t u)

/-- Paired constraints at the same names. -/
def Listed (D : Duo) : Table String Constr → Table String Constr → Prop :=
  List.Forall₂ fun p q => p.1 = q.1 ∧ D.Pair p.2 q.2

namespace Abreast

theorem trivial : D.Abreast D.Pair Walk.trivial Walk.trivial := by
  have htrue {i : Nat} (m : Model) : D.mirror.passes (.goal i "true" (.truth true) none) m = true := by
    rw [Mirror.passes, Constr.spare, ite_self]
    rfl
  refine (makes (Q := fun c => ∃ i, c = .goal i "true" (.truth true) none)
    (R := fun c => ∃ i, c = .goal i "true" (.truth true) none) (fun h => ?_) fun h => ?_).mono ?_
  · obtain ⟨rfl, rfl⟩ := mkGoal_ok h
    exact ⟨fun side => by cases side <;> rfl, _, rfl⟩
  · obtain ⟨rfl, rfl⟩ := mkGoal_ok h
    exact ⟨fun side => by cases side <;> rfl, _, rfl⟩
  · rintro _ _ ⟨⟨i, rfl⟩, j, rfl⟩
    exact .nothing (Constr.proper_goal i _ _ _) (Constr.proper_goal j _ _ _) htrue

/-- Both programs are cut at the same back edges. -/
theorem loopPre (hD : D.Fair) (hset : D.Settles settle) (hc : D.Pair c c') (header : String)
    (u : Unroll) : D.Abreast D.Pair (Walk.loopPre settle .orig c header u)
      (Walk.loopPre settle .mod c' header u) := by
  refine env fun e e' hf => ?_
  rw [hf.orig.unrollBound, hf.mod.unrollBound, hD.unrollBound]
  exact ite Iff.rfl (fun _ _ => (note ..).bind fun _ _ _ => trivial) fun _ _ => hset hc ..

theorem successorPres (hD : D.Fair) (hset : D.Settles settle) (hc : D.Pair c c') (succs : List String) :
    D.Abreast D.Listed (Walk.successorPres settle .orig g c t u succs)
      (Walk.successorPres settle .mod g c' t u succs) := by
  induction succs with
  | nil => exact pure .nil
  | cons s succs ih =>
    have hrest {d d' : Constr} (hd : D.Pair d d') : D.Abreast D.Listed
        (do return (s, d) :: (← Walk.successorPres settle .orig g c t u succs))
        (do return (s, d') :: (← Walk.successorPres settle .mod g c' t u succs)) :=
      ih.bind fun _ _ hl => pure (.cons ⟨rfl, hd⟩ hl)
    rw [Walk.successorPres, Walk.successorPres]
    split
    · exact (loopPre hD hset hc s u).bind fun _ _ hd => hrest hd
    · have hpre : D.Abreast D.Pair
          (do Walk.present ((← Walk.env .orig).precond? s (g.restrict u s)))
          (do Walk.present ((← Walk.env .mod).precond? s (g.restrict u s))) :=
        env fun e e' hf => present (hf.frames.preconds _)
      exact hpre.bind fun _ _ hd => hrest hd

theorem trailing (ht : D.Listed targets targets') (t : String) :
    D.Abreast D.Pair (Walk.trailing .orig g targets t) (Walk.trailing .mod g targets' t) := by
  unfold Walk.trailing
  split
  · exact present (Table.lookup_forall₂ ht _)
  · exact env fun e e' hf => present hf.frames.retPost

theorem settleForward (hset : D.Settles settle) (hc : D.Pair c c') (succs : List String) :
    D.Abreast (fun _ _ => True) (Walk.settleForward settle .orig g c u succs)
      (Walk.settleForward settle .mod g c' u succs) := by
  induction succs with
  | nil => exact pure True.intro
  | cons s succs ih => exact (hset hc _ _).bind fun _ _ _ => ih

/-- A block whose forward successors are settled. -/
theorem settleBlock (hD : D.Fair) (hset : D.Settles settle) (hg : Graph.ofSub D.sub = .ok g)
    (hc : D.Pair c c') : D.Abreast D.Pair (Walk.settleBlock settle expand .orig g c t u)
      (Walk.settleBlock settle expand .mod g c' t u) := by
  refine (successorPres hD hset hc _).bind fun targets targets' ht => ?_
  refine (trailing ht t).bind fun after after' ha => ?_
  cases hb : g.blocks.lookup t with
  | none => exact throw _
  | some b =>
    refine (pure (A := fun x y => x = b ∧ y = b) ⟨rfl, rfl⟩).bind fun x y ⟨hx, hy⟩ => ?_
    subst hx hy
    refine (move fun e e' hf => hf.moved ?_ ..).bind fun _ _ _ => visitBlock hD (block_mem hg hb).1 ha
    exact { hf.frames with
      targets := Table.lookup_forall₂ ht
      pred := rfl
      unroll := rfl }

/-- Copies of blocks are settled alike. -/
theorem settleNode (hD : D.Fair) (fuel : Nat) : D.Settles (Walk.settleNode fuel) := by
  induction fuel with
  | zero => exact fun _ _ _ => throw _
  | succ fuel ih =>
    intro c c' hc t u
    refine env fun e e' hf => ?_
    rw [hf.frames.graph]
    cases hgraph : e.frame.graph with
    | none => exact throw _
    | some g =>
      have hg := hf.frames.built hgraph
      refine (pure (A := fun x y => x = g ∧ y = g) ⟨rfl, rfl⟩).bind fun x y ⟨hx, hy⟩ => ?_
      subst hx hy
      refine env fun e e' hf => ?_
      have hkept := hf.frames.preconds (t, y.restrict u t)
      rw [Env.precond?, Env.precond?]
      generalize e.frame.preconds[(t, y.restrict u t)]? = o at hkept ⊢
      generalize e'.frame.preconds[(t, y.restrict u t)]? = o' at hkept ⊢
      cases hkept with
      | some h => exact pure h
      | none => exact (settleForward ih hc _).bind fun _ _ _ => settleBlock hD ih hg hc

end Abreast

/-- From environments that face each other, and where nothing is kept yet, both walks of the subroutine
come to paired preconditions. -/
theorem visitSub_pair (hD : D.Fair) (hc : D.Pair c c') (hf : D.Facing (w.env .orig) (v.env .mod))
    (hr : (w.env .orig).frame.root = none) (hr' : (v.env .mod).frame.root = none)
    (h : visitSub .orig c D.sub w = .ok d w₁) (h' : visitSub .mod c' D.sub v = .ok d' v₁) :
    D.Pair d d' := by
  have hdepth : depthBound (v.env .mod) D.sub = depthBound (w.env .orig) D.sub := by
    rw [depthBound, depthBound, hf.orig.subs, hf.mod.subs, hf.orig.unrollBound, hf.mod.unrollBound,
      hD.subs, hD.unrollBound]
  have henter : enterSub (settleNode (depthBound (w.env .orig) D.sub)) .orig c D.sub w = .ok d w₁ := h
  have henter' : enterSub (settleNode (depthBound (v.env .mod) D.sub)) .mod c' D.sub v = .ok d' v₁ := h'
  rw [hdepth] at henter'
  obtain ⟨g, a, w₂, w₃, hg, hb, hrun, -⟩ := enterSub_inv henter
  obtain ⟨g', a', v₂, v₃, hg', hb', hrun', -⟩ := enterSub_inv henter'
  cases hg.symm.trans hg'
  have hvars : ∀ x ∈ D.sub.vars, ∃ t t', ((attached w .orig).env .orig).vars.lookup x = some t ∧
      ((attached v .mod).env .mod).vars.lookup x = some t' := by
    rw [attached, attached, World.env_setEnv, World.env_setEnv, hf.orig.vars, hf.mod.vars]
    exact fun x hx => hD.bound (.inl hx)
  have hleft (x : Var) (hx : x ∈ D.sub.vars) :
      ∃ t, ((attached w .orig).env .orig).vars.lookup x = some t := by
    obtain ⟨t, -, ht, -⟩ := hvars x hx
    exact ⟨t, ht⟩
  have hright (x : Var) (hx : x ∈ D.sub.vars) :
      ∃ t, ((attached v .mod).env .mod).vars.lookup x = some t := by
    obtain ⟨-, t, -, ht⟩ := hvars x hx
    exact ⟨t, ht⟩
  rw [bindVars_eq hleft] at hb
  rw [bindVars_eq hright] at hb'
  cases hb
  cases hb'
  refine ((Abreast.settleNode hD _ hc g.entry []).run ?_ hrun hrun').2
  rw [opened, opened, attached, attached, World.env_setEnv, World.env_setEnv, World.env_setEnv,
    World.env_setEnv]
  refine hf.moved ?_ _ _ _ _
  exact { hf.frames with
    graph := rfl
    built := fun h => Option.some.inj h ▸ hg
    retPost := .some hc
    preconds := fun k => by
      rw [hr, hr', if_neg (Option.some_ne_none _).symm, if_neg (Option.some_ne_none _).symm,
        Std.HashMap.getElem?_empty]
      exact .none }

end Duo

end Precond

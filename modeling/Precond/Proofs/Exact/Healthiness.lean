import Precond.Proofs.Constraint.Given
import Precond.Proofs.Exact.Basic
import Precond.Proofs.Walk.Lockstep
import Precond.Proofs.Walk.Success

/-! The walk is healthy: the precondition of a conjunction is the conjunction of the preconditions, and
stronger postconditions have stronger preconditions (`Walk.visitSub_healthy`). Walks for different
postconditions go in lockstep. What each of them comes to is what the first one comes to, if its
postcondition said what theirs do. -/

namespace Precond

open IR Precond.Flow

/-- The second constraint says what the first one says if its node with number `n` says what `f`
tells. -/
structure Constr.Swapped (n : Nat) (f : Model → Bool) (c d : Constr) : Prop where
  conjunctive : c.Conjunctive n
  formal : c.Formal → d.Formal
  truth : c.Formal → ∀ m, d.truth m = c.truthGiven n f m

namespace Constr.Swapped

variable {n low i j : Nat} {f : Model → Bool} {c d : Constr}

/-- The node itself. -/
theorem self (c : Constr) (h : d.Formal) : Swapped c.id d.truth c d where
  conjunctive := .self c
  formal _ := h
  truth _ m := (truthGiven_self c _ m).symm

theorem goal (hlow : n < low) (hi : low ≤ i) (name : String) (value : Term .bool) (tid : Option String) :
    Swapped n f (.goal i name value tid) (.goal j name value tid) := by
  have hne : i ≠ n := by omega
  refine ⟨fun f g m => ?_, fun _ => formal_goal _ _, fun _ m => ?_⟩
  · simp only [truthGiven, if_neg hne, Bool.and_self]
  · simp only [truthGiven, if_neg hne, truth_goal]

theorem of_copied (hlow : n < low) (h : Copied low c d) : Swapped n f c d := by
  cases h with
  | goal hi => exact goal hlow hi ..

variable {hyps hyps' goals goals' : List Constr}

theorem all_conjunctive (h : List.Forall₂ (Swapped n f) goals goals') (f g : Model → Bool) (m : Model) :
    truthsGiven n (fun m => f m && g m) goals m =
      (truthsGiven n f goals m && truthsGiven n g goals m) := by
  induction h with
  | nil => rfl
  | cons hc _ ih =>
    simp only [truthsGiven, ih, hc.conjunctive f g m]
    ac_rfl

theorem all_formal (h : List.Forall₂ (Swapped n f) goals goals') (hf : ∀ c ∈ goals, c.Formal) :
    ∀ d ∈ goals', d.Formal := by
  induction h with
  | nil => exact nofun
  | cons hc _ ih =>
    intro d hd
    rcases List.mem_cons.mp hd with rfl | hd
    · exact hc.formal (hf _ List.mem_cons_self)
    · exact ih (fun c hc => hf c (List.mem_cons_of_mem _ hc)) d hd

theorem all_truth (h : List.Forall₂ (Swapped n f) goals goals') (hf : ∀ c ∈ goals, c.Formal)
    (m : Model) : (goals'.all fun d => d.truth m) = truthsGiven n f goals m := by
  induction h with
  | nil => rfl
  | cons hc _ ih =>
    rw [List.all_cons, truthsGiven, hc.truth (hf _ List.mem_cons_self),
      ih fun c hc => hf c (List.mem_cons_of_mem _ hc)]

/-- Copied goals say the same whatever the node says. -/
theorem copied_given (hlow : n < low) (h : List.Forall₂ (Copied low) hyps hyps') (f g : Model → Bool)
    (m : Model) : truthsGiven n f hyps m = truthsGiven n g hyps m := by
  induction h with
  | nil => rfl
  | cons hc _ ih =>
    cases hc with
    | @goal i _ name value tid hi =>
      have hne : i ≠ n := by omega
      simp only [truthsGiven, truthGiven, if_neg hne, ih]

theorem clause (hlow : n < low) (hi : low ≤ i) (hh : List.Forall₂ (Copied low) hyps hyps')
    (hg : List.Forall₂ (Swapped n f) goals goals') :
    Swapped n f (.clause i hyps goals) (.clause j hyps' goals') := by
  have hne : i ≠ n := by omega
  have hh' : List.Forall₂ (Swapped n f) hyps hyps' := hh.imp fun _ _ => of_copied hlow
  have hparts (h : (Constr.clause i hyps goals).Formal) :
      (∀ c ∈ hyps, c.Formal) ∧ ∀ c ∈ goals, c.Formal :=
    ⟨fun c hc => h.child (List.mem_append_left _ hc), fun c hc => h.child (List.mem_append_right _ hc)⟩
  refine ⟨fun f g m => ?_, fun h => ?_, fun h m => ?_⟩
  · simp only [truthGiven, if_neg hne]
    rw [all_conjunctive hg f g m, copied_given hlow hh (fun m => f m && g m) f m,
      copied_given hlow hh g f m]
    exact Bool.or_and_distrib_left ..
  · exact formal_clause (all_formal hh' (hparts h).1) (all_formal hg (hparts h).2)
  · rw [truth_clause (all_formal hh' (hparts h).1) (all_formal hg (hparts h).2),
      all_truth hh' (hparts h).1, all_truth hg (hparts h).2]
    simp only [truthGiven, if_neg hne]

theorem branch {yes yes' no no' : Constr} (hlow : n < low) (hi : low ≤ i) (jump : String)
    (p : Term .bool) (hy : Swapped n f yes yes') (hn : Swapped n f no no') :
    Swapped n f (.branch i jump p yes no) (.branch j jump p yes' no') := by
  have hne : i ≠ n := by omega
  have hparts (h : (Constr.branch i jump p yes no).Formal) : yes.Formal ∧ no.Formal :=
    ⟨h.child List.mem_cons_self, h.child (List.mem_cons_of_mem _ List.mem_cons_self)⟩
  refine ⟨fun f g m => ?_, fun h => ?_, fun h m => ?_⟩
  · simp only [truthGiven, if_neg hne]
    split
    · exact hy.conjunctive f g m
    · exact hn.conjunctive f g m
  · exact formal_branch (hy.formal (hparts h).1) (hn.formal (hparts h).2)
  · rw [truth_branch (hy.formal (hparts h).1) (hn.formal (hparts h).2), hy.truth (hparts h).1,
      hn.truth (hparts h).2]
    simp only [truthGiven, if_neg hne]

theorem subst {pairs : List (SomeTerm × SomeTerm)} (hlow : n < low) (hi : low ≤ i)
    (hc : ∀ p ∈ pairs, p.1.IsConst) (hb : Swapped n f c d) :
    Swapped n f (.subst i c pairs) (.subst j d pairs) := by
  have hne : i ≠ n := by omega
  refine ⟨fun f g m => ?_, fun h => formal_subst_congr h hb.formal, fun h m => ?_⟩
  · simp only [truthGiven, if_neg hne]
    exact hb.conjunctive f g _
  · rw [truth_subst_pairs hc (formal_subst_congr h hb.formal),
      hb.truth (h.child (List.mem_singleton_self _))]
    simp only [truthGiven, if_neg hne]

end Constr.Swapped

/-- A walk for a postcondition with the number `n`, and one for a postcondition that says what `f`
tells. -/
def Twin.swapped (policy : Side → Env) (side : Side) (bound : Int) {n low : Nat} (f : Model → Bool)
    (h : n < low) : Twin where
  scope := .any policy
  side := side
  constants := True
  numbered := True
  low := low
  bound := bound
  bound' := bound
  rel := Constr.Swapped n f
  goal hi := .goal h hi ..
  clause hi := .clause h hi
  branch hi hy hn := .branch h hi _ _ hy hn
  subst hi hc hp := .subst h hi (hp True.intro) hc

namespace Walk

variable {side : Side} {w w' w₁ : World} {s : Sub} {p q r c : Constr} {K : Constr → Prop}
  {P Q F : Term .bool}

/-- The formula of the precondition of a subroutine for a postcondition. -/
def Asks (side : Side) (s : Sub) (w : World) (post : Constr) (F : Term .bool) : Prop :=
  ∃ pre w', visitSub side post s w = .ok pre w' ∧ pre.toFormula = .ok F

/-- A walk for another postcondition, where only numbers of constraints are different. -/
theorem visitSub_swapped {n : Nat} (hK : Constr.Register K w.nodes) (hp : K p) (hr : r.Formal)
    (hconst : w.Constant) (hroot : (w.env side).frame.root ≠ some (s.tid, p.id))
    (hroot' : (w.env side).frame.root ≠ some (s.tid, r.id))
    (h : visitSub side p s w = .ok c w₁) :
    ∃ d v, visitSub side r s { w with nodes := n } = .ok d v ∧
      Constr.Swapped p.id r.truth c d ∧ c.toFormula = c.plain := by
  have henv (side : Side) : World.env { w with nodes := n } side = w.env side := by cases side <;> rfl
  let T := Twin.swapped (fun side => (w.env side).policy) side (w.env side).unrollBound r.truth
    (hK.lt hp)
  have hw : w.Under T.scope := ⟨fun _ => rfl, fun _ => True.intro⟩
  have hl : T.Linked none K w w := {
    under := hw
    under' := hw
    settled := fun _ => rfl
    tied := World.Same.refl w
    inlining := fun _ => rfl
    register := fun _ => hK
    low := Nat.le_refl _
    constant := fun _ => hconst
    bound := rfl
    bound' := rfl }
  have hl' : T.Linked none K w { w with nodes := n } := hl.nodes (Nat.le_refl _) fun _ => hK
  obtain ⟨d, v, K₁, hd, -, hl₁, hheld, -⟩ := visitSub_lockstep (T := T) rfl True.intro hl'
    ⟨hp, .self p hr⟩ (.fresh hroot ((henv side).symm ▸ hroot')) h
  exact ⟨d, v, hd, hheld.rel, (hl₁.register True.intro).toNumbered.toFormula_eq hheld.node⟩

/-- The formula of what is asked for is that of the nodes. -/
theorem Asks.plain (h : Asks side s w p F) (hK : Constr.Register K w.nodes) (hp : K p)
    (hP : p.Formal) (hconst : w.Constant)
    (hroot : (w.env side).frame.root ≠ some (s.tid, p.id)) :
    ∃ c w', visitSub side p s w = .ok c w' ∧ c.plain = .ok F ∧ Constr.Swapped p.id p.truth c c := by
  obtain ⟨c, w', hc, hF⟩ := h
  obtain ⟨d, v, hd, hcd, hplain⟩ := visitSub_swapped (n := w.nodes) hK hp hP hconst hroot hroot hc
  cases hc.symm.trans hd
  exact ⟨c, w', hc, hplain.symm.trans hF, hcd⟩

/-- What a walk for another postcondition asks for. -/
theorem asks_swapped {n : Nat} {K' : Constr → Prop} (hK : Constr.Register K w.nodes) (hp : K p)
    (hK' : Constr.Register K' n) (hr : K' r) (hR : r.Formal) (hconst : w.Constant)
    (hroot : (w.env side).frame.root ≠ some (s.tid, p.id))
    (hroot' : (w.env side).frame.root ≠ some (s.tid, r.id))
    (hc : visitSub side p s w = .ok c w₁) (hF : c.plain = .ok F) :
    ∃ G, Asks side s { w with nodes := n } r G ∧ ∀ m, G.holds m = c.truthGiven p.id r.truth m := by
  have henv (side : Side) : World.env { w with nodes := n } side = w.env side := by cases side <;> rfl
  obtain ⟨d, v, hd, hcd, -⟩ := visitSub_swapped (n := n) hK hp hR hconst hroot hroot' hc
  obtain ⟨G, hG⟩ := hcd.formal ⟨F, hF⟩
  have hconst' : World.Constant { w with nodes := n } := fun side => henv side ▸ hconst side
  have hroot'' := (henv side).symm ▸ hroot'
  obtain ⟨d', v', hd', -, hplain⟩ := visitSub_swapped (n := n) hK' hr hR hconst' hroot'' hroot'' hd
  refine ⟨G, ⟨d, v, hd, hplain.trans hG⟩, fun m => ?_⟩
  rw [← Constr.truth_of_plain hG, hcd.truth ⟨F, hF⟩]

/-- The walk is healthy. If it succeeds for a postcondition, it does so for any other one from the same
environments, and for the conjunction of the two; the precondition of the conjunction is the
conjunction of the preconditions, and if one postcondition implies the other, so do the
preconditions. -/
theorem visitSub_healthy (hK : Constr.Register K w.nodes) (hp : K p) (hq : K q)
    (hP : p.toFormula = .ok P) (hQ : q.toFormula = .ok Q) (hconst : w.Constant)
    (hkept : Unkept side K s w) (h : Asks side s w p F) :
    ∃ r w' R G H, conjoin [p, q] w = .ok r w' ∧ r.toFormula = .ok R ∧
      (∀ m, R.holds m = (P.holds m && Q.holds m)) ∧
      Asks side s w q G ∧ Asks side s w' r H ∧
      (∀ m, H.holds m = (F.holds m && G.holds m)) ∧
      ((∀ m, P.holds m = true → Q.holds m = true) → ∀ m, F.holds m = true → G.holds m = true) := by
  have hP' : p.plain = .ok P := (hK.toNumbered.toFormula_eq hp).symm.trans hP
  have hQ' : q.plain = .ok Q := (hK.toNumbered.toFormula_eq hq).symm.trans hQ
  have hparts : ∀ c ∈ [p, q], c.Formal := by
    intro c hc
    rcases List.mem_cons.mp hc with rfl | hc
    · exact ⟨P, hP'⟩
    · cases List.mem_singleton.mp hc
      exact ⟨Q, hQ'⟩
  -- the conjunction is a new constraint
  obtain ⟨R, hR, hRm⟩ : ∃ R, (Constr.clause w.nodes [] [p, q]).plain = .ok R ∧
      ∀ m, R.holds m = (!([] : List Constr).all (fun c => c.truth m) || [p, q].all fun c => c.truth m) :=
    Constr.plain_clause nofun hparts
  have hKr := hK.add (c := .clause w.nodes [] [p, q]) rfl fun d hd => by
    rcases List.mem_cons.mp hd with rfl | hd
    · exact hp
    · cases List.mem_singleton.mp hd
      exact hq
  have htruth : (Constr.clause w.nodes [] [p, q]).truth = fun m => p.truth m && q.truth m := by
    funext m
    rw [Constr.truth_of_plain hR, hRm]
    simp
  have hroot := hkept.root hp
  have hroot_new : (w.env side).frame.root ≠ some (s.tid, (Constr.clause w.nodes [] [p, q]).id) :=
    fun hr => Nat.lt_irrefl _ (hkept _ hr).1
  obtain ⟨c, w₁, hc, hF, hself⟩ := h.plain hK hp ⟨P, hP'⟩ hconst hroot
  obtain ⟨G, hG, hGm⟩ := asks_swapped hK hp hK hq ⟨Q, hQ'⟩ hconst hroot (hkept.root hq) hc hF
  obtain ⟨H, hH, hHm⟩ := asks_swapped hK hp hKr (.inr rfl) ⟨R, hR⟩ hconst hroot hroot_new hc hF
  have hFm (m : Model) : F.holds m = c.truthGiven p.id p.truth m := by
    rw [← Constr.truth_of_plain hF, hself.truth ⟨F, hF⟩]
  refine ⟨_, _, R, G, H, rfl, (hKr.toNumbered.toFormula_eq (.inr rfl)).trans hR, fun m => ?_, hG, hH,
    fun m => ?_, fun himp m hm => ?_⟩
  · rw [hRm, ← Constr.truth_of_plain hP', ← Constr.truth_of_plain hQ']
    simp
  · rw [hHm, hFm, hGm, htruth]
    exact hself.conjunctive ..
  · rw [hGm]
    refine hself.conjunctive.mono (f := p.truth) (fun m hm => ?_) ((hFm m).symm.trans hm)
    rw [Constr.truth_of_plain hQ']
    exact himp m (by rw [← Constr.truth_of_plain hP']; exact hm)

/-! ### A register that is forgotten -/

/-- A register gets a value of which nothing is known. -/
def forgetful : Sub where
  name := "forgetful"
  tid := "@forgetful"
  addr := none
  args := []
  blks := [{
    tid := "%only"
    phis := []
    defs := [⟨⟨"R0", .word 32⟩, .unknown "any" (.word 32), "%set"⟩]
    jumps := [⟨.ret (.direct "%exit"), .always, "%ret"⟩] }]

def forgetting : World := ⟨Env.start .arm [forgetful], Env.start .arm [], 2, 0⟩

/-- The register is seven. -/
def seven : Term .bool := .eq (.const "R0" (.bv 32)) (.numeral 32 7)

/-- The register is not zero. -/
def nonZero : Term .bool := .not (.eq (.const "R0" (.bv 32)) (.numeral 32 0))

def sevenGoal : Constr := .goal 0 "seven" seven none

def nonZeroGoal : Constr := .goal 1 "not zero" nonZero none

theorem forgetful_visited :
    Succeeds (visitSub .orig sevenGoal forgetful) forgetting fun pre _ =>
      pre = .subst 2 sevenGoal
        [(⟨_, .const "R0" (.bv 32)⟩, ⟨_, .const "unknown_0" (.bv 32)⟩)] := by
  have hvars : sortByName forgetful.vars = [⟨"R0", .word 32⟩] := by
    rw [show forgetful.vars = [⟨"R0", .word 32⟩] by decide]
    simp [sortByName]
  refine .step rfl (.enter (Graph.ofSub_lone rfl rfl) hvars ?_)
  refine .step rfl (.step rfl (.step rfl (.step rfl (.restoring ?_))))
  refine .settle rfl (precond?_empty rfl ..) (.step rfl (.step rfl ?_))
  refine .step rfl (.step rfl (.step rfl (.block (precond?_empty rfl ..) (.now rfl ?_))))
  rfl

theorem register_goals : Constr.Register (fun c => c = sevenGoal ∨ c = nonZeroGoal) 2 where
  children := by
    rintro _ _ (rfl | rfl) hd <;> exact absurd hd List.not_mem_nil
  inj := by
    rintro _ _ (rfl | rfl) (rfl | rfl) h <;> first | rfl | exact absurd h (by decide)
  lt := by
    rintro _ (rfl | rfl) <;> decide

theorem visitSub_healthy_forgetful :
    ∃ r w' R F G H, conjoin [sevenGoal, nonZeroGoal] forgetting = .ok r w' ∧ r.toFormula = .ok R ∧
      Asks .orig forgetful forgetting sevenGoal F ∧ Asks .orig forgetful forgetting nonZeroGoal G ∧
      Asks .orig forgetful w' r H ∧ (∀ m, H.holds m = (F.holds m && G.holds m)) ∧
      ((∀ m, seven.holds m = true → nonZero.holds m = true) →
        ∀ m, F.holds m = true → G.holds m = true) := by
  obtain ⟨pre, w₁, h, hpre⟩ := forgetful_visited
  have hK := register_goals.add (c := pre) (by rw [hpre]; rfl) fun d hd => by
    rw [hpre] at hd
    exact .inl (List.mem_singleton.mp hd)
  have hF : pre.toFormula = .ok (seven.replace [⟨.const "R0" (.bv 32), .const "unknown_0" (.bv 32)⟩]) :=
    (hK.toNumbered.toFormula_eq (.inr rfl)).trans (hpre ▸ Constr.plain_subst rfl _ _)
  have hconst : forgetting.Constant := fun side => by cases side <;> exact ⟨nofun, nofun⟩
  obtain ⟨r, w', R, G, H, hr, hR, -, hG, hH, hall, hmono⟩ := visitSub_healthy register_goals
    (.inl rfl) (.inr rfl) (Constr.toFormula_goal ..) (Constr.toFormula_goal ..) hconst
    (.fresh rfl) ⟨pre, w₁, h, hF⟩
  exact ⟨r, w', R, _, G, H, hr, hR, ⟨pre, w₁, h, hF⟩, hG, hH, hall, hmono⟩

end Walk

end Precond

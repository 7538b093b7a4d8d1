import Precond.Proofs.Exact.Basic
import Precond.Proofs.Walk.Checks
import Precond.Proofs.Walk.Files
import Precond.Proofs.Walk.Replay
import Precond.Proofs.Walk.Success

/-! Exactness with side conditions. For a subroutine without loops and calls and local side rules, the
precondition is true in a state just if the run from there is accepted: along what it reads, each
condition that is to be established holds up to the first reading of which something does not hold
that is taken for granted, and without such a reading the postcondition is true where the run returns
(`Walk.visitSub_conditions`). So no reading that a definition or the condition of a jump makes is of
address zero where loads are to be checked (`Walk.visitSub_nonNull`). -/

namespace Precond

open IR Precond.Flow

theorem SideRule.known_of_isLocal {r : SideRule} (h : r.isLocal) : r.known := by
  cases r with
  | custom => cases h
  | nonNull | validAccess | nonZeroDivisor | offsetRead => rfl

/-- One subroutine is walked, without calls. -/
def Scope.alone (policy : Side → Env) (side : Side) {s : Sub} (hdirect : ∀ b ∈ s.blks, b.Direct)
    (hrules : ∀ r ∈ (policy side).sideRules, r.isLocal) : Scope where
  policy := policy
  draws := False
  body side' c := side' = side ∧ c = s
  rule _ _ _ := True
  sideRules := by
    rintro side' c r ⟨rfl, -⟩ hr
    exact .inr (SideRule.known_of_isLocal (hrules r hr))
  elts := by
    rintro side' c b x ⟨rfl, rfl⟩ hb hx
    obtain ⟨hphis, hknown, -⟩ := hdirect b hb
    obtain ⟨hdefs, hjumps⟩ := Bool.and_eq_true_iff.mp hknown
    rw [Blk.elts, hphis] at hx
    rcases List.mem_append.mp hx with hx | hx
    · obtain ⟨d, hd, rfl⟩ := List.mem_map.mp hx
      exact .inr (List.all_eq_true.mp hdefs d hd)
    · obtain ⟨j, hj, rfl⟩ := List.mem_map.mp hx
      exact .inr (List.all_eq_true.mp hjumps j hj)
  chosen _ _ _ _ _ := True.intro
  quiet := by
    rintro side' c b j name ret r ⟨rfl, rfl⟩ hb hj hk -
    exact absurd hk ((hdirect b hb).calls (Blk.mem_jumps hj))
  expanded := by
    rintro side' c b j name ret tids ⟨rfl, rfl⟩ hb hj hk - -
    exact absurd hk ((hdirect b hb).calls (Blk.mem_jumps hj))

/-- What the side rules of an environment ask of a reading. -/
def World.asks (w : World) (side : Side) : Store → Exp → Duty → Bool → Prop :=
  Demands ⟨(w.env side).stack, (w.env side).heap⟩ (w.env side).sideRules

namespace Walk

variable {side : Side} {w w' : World} {s : Sub} {post pre : Constr} {F : Term .bool}

/-- A walk with local side rules and without forced jumps, for a postcondition with a formula. No
preconditions for it are kept yet. -/
structure Checked (side : Side) (w : World) (s : Sub) (post : Constr) (F : Term .bool) : Prop where
  named : (w.env side).Named
  reach : (w.env side).reach = []
  isLocal : ∀ r ∈ (w.env side).sideRules, r.isLocal
  root : (w.env side).frame.root ≠ some (s.tid, post.id)
  fresh : post.Fresh w.nodes
  formula : post.toFormula = .ok F

/-- Where no preconditions are kept, the walk that keeps none comes to the same, be it in the same world or
in one that is later than the whole walk. -/
theorem visitSub_replayed {S : Scope} {K : Constr → Prop} {z : Option World} {v : World} (hS : ¬ S.draws)
    (hs : S.body side s) (hl : (Twin.same S side (w.env side).unrollBound).Linked z Any w v)
    (hK : Constr.Register K w.nodes) (hpost : K post)
    (hroot : (w.env side).frame.root ≠ some (s.tid, post.id))
    (h : visitSub side post s w = .ok pre w') (hz : UpTo z w') :
    ∃ n d v₁, enterPlain (plainNode n) side post s v = .ok d v₁ ∧ pre.toFormula = d.plain ∧
      Tied z w' v₁ := by
  have hset : Retracing S side (w.env side).unrollBound (depthBound (w.env side) s) :=
    settleNode_retraces hS _
  obtain ⟨d, v₁, ⟨n, hd⟩, hl₁, hplain, -⟩ := enterSub_joined
    (fun g hg => settleNode_fills _ hs hg post _ _) (fun g hg w => hset.node hs hg .refl)
    hl ⟨True.intro, rfl⟩ (fun _ _ hr => absurd hr hroot) h hz
  obtain ⟨c, v₂, K₁, hc, -, hl₂, hheld, -⟩ := visitSub_lockstep
    (T := Twin.alone S side (w.env side).unrollBound) rfl hs (linked_alone hl.under rfl hK)
    ⟨hpost, True.intro⟩ (.fresh hroot hroot) h
  cases h.symm.trans hc
  have hreg := hl₂.register True.intro
  exact ⟨n, d, v₁, hd n (Nat.le_refl n), (hreg.toNumbered.toFormula_eq hheld.node).trans hplain.rel.symm,
    hl₁.tied⟩

theorem visitSub_anew {S : Scope} {K : Constr → Prop} (hS : ¬ S.draws) (hs : S.body side s)
    (hw : w.Under S) (hK : Constr.Register K w.nodes) (hpost : K post)
    (hroot : (w.env side).frame.root ≠ some (s.tid, post.id))
    (h : visitSub side post s w = .ok pre w') :
    ∃ n d v, enterPlain (plainNode n) side post s w = .ok d v ∧ pre.toFormula = d.plain ∧
      w'.Same v := visitSub_replayed hS hs (linked_self hw rfl) hK hpost hroot h True.intro

/-- The walk of a subroutine that keeps no preconditions. -/
theorem enterPlain_tells {S : Scope} {A : Account side} {n : Nat} {d : Constr} (hs : S.body side s)
    (hback : ∀ g, Graph.ofSub s = .ok g → ∀ a b, ¬ g.isBackEdge a b) (hw : w.Under S)
    (hkind : A.kind w) (hpost : post.Formal)
    (hA : ∀ g, Graph.ofSub s = .ok g → A.Inductive S s g post)
    (h : enterPlain (plainNode n) side post s w = .ok d w') :
    ∃ e, s.first? = some e ∧ ((w.env side).Named → (w'.env side).Named) ∧
      A.tells (w'.env side).vars e d := by
  obtain ⟨_, w₁, hw₁, h₁⟩ := bind_ok h
  cases hw₁
  obtain ⟨g, w₂, hlift, h₂⟩ := bind_ok h₁
  obtain ⟨hg, rfl⟩ := ofExcept_ok hlift
  obtain ⟨a, w₃, hb, h₃⟩ := bind_ok (x := bindVars side s) h₂
  obtain ⟨hwalked, -, -⟩ := mkVars_ok True Any hb
  have hk₃ : (attached w side).Kept S.rule (fun _ => Eq) w₃ :=
    (Steady.bindVars s).toKeeps.of_ok (hw.setEnv rfl rfl) hb
  rw [plainOpening_eq] at h₃
  have hinside : Inside A S g post (plainOpened w₃ side post g) := {
    under := (hk₃.under (hw.setEnv rfl rfl)).setEnv rfl rfl
    kind := by
      refine A.policy hkind ?_
      rw [plainOpened, World.env_setEnv]
      refine ((hk₃.env side).policy).trans ?_
      rw [attached, World.env_setEnv]
      rfl
    graph := by rw [plainOpened, World.env_setEnv]
    retPost := by rw [plainOpened, World.env_setEnv] }
  cases hsettle : plainNode n side post g.entry [] (plainOpened w₃ side post g) with
  | error f w₄ =>
    rw [hsettle] at h₃
    cases h₃
  | ok c w₄ =>
    rw [hsettle] at h₃
    cases h₃
    obtain ⟨hfurther, htells⟩ := plainNode_tells hs hg (hback g hg) hpost (hA g hg) n hinside hsettle
    refine ⟨g.entry, (Graph.of_ofSub hg).entry, fun hn => ?_, ?_⟩
    · have hn₁ : ((attached w side).env side).Named := by
        rw [attached, World.env_setEnv]
        exact hn.mono rfl rfl rfl (Nat.le_refl _)
      have hn₂ := hfurther.named (by
        rw [plainOpened, World.env_setEnv]
        exact (hwalked.later.named hn₁).mono rfl rfl rfl (Nat.le_refl _))
      rw [closed, World.env_setEnv]
      exact hn₂.mono rfl rfl rfl (Nat.le_refl _)
    · rw [closed, World.env_setEnv]
      exact htells

/-- Where no preconditions are kept, an account of the blocks of a subroutine without loops and calls is
one of its precondition. -/
theorem visitSub_tells {A : Account side} (hdirect : ∀ b ∈ s.blks, b.Direct) (hloop : LoopFree s)
    (hlocal : ∀ r ∈ (w.env side).sideRules, r.isLocal) (hnamed : (w.env side).Named)
    (hroot : (w.env side).frame.root ≠ some (s.tid, post.id)) (hfresh : post.Fresh w.nodes)
    (hF : post.toFormula = .ok F) (hkind : A.kind w)
    (hA : ∀ S : Scope, S.body side s → ∀ g, Graph.ofSub s = .ok g → A.Inductive S s g post)
    (h : visitSub side post s w = .ok pre w') :
    ∃ F' e d, pre.toFormula = .ok F' ∧ d.plain = .ok F' ∧ s.first? = some e ∧
      Separate (w'.env side).vars ∧ A.tells (w'.env side).vars e d := by
  let S := Scope.alone (fun side => (w.env side).policy) side hdirect hlocal
  have hunder : w.Under S := ⟨fun _ => rfl, fun _ => True.intro⟩
  have hledger := hfresh.ledger hF
  obtain ⟨n, d, v, hd, hplain, hsame⟩ := visitSub_anew (S := S) id ⟨rfl, rfl⟩ hunder
    ⟨hledger.toNumbered, hledger.lt⟩ .refl hroot h
  obtain ⟨e, he, hlater, htells⟩ := enterPlain_tells (S := S) ⟨rfl, rfl⟩
    (fun g hg => LoopFree.uncut hloop hg) hunder hkind (hledger.formal .refl) (hA S ⟨rfl, rfl⟩) hd
  have hvars : (v.env side).vars = (w'.env side).vars := by
    have hcore := congrArg Env.vars (hsame side)
    exact hcore
  obtain ⟨F', hF'⟩ := A.formal htells
  exact ⟨F', e, d, hplain.trans hF', hF', he, hvars ▸ (hlater hnamed).separate, hvars ▸ htells⟩

/-- The precondition of a subroutine without loops and calls accepts what the run from a state reads,
up to the postcondition where the run returns. -/
theorem visitSub_course (hdirect : ∀ b ∈ s.blks, b.Direct) (hloop : LoopFree s)
    (hw : Checked side w s post F) (h : visitSub side post s w = .ok pre w') :
    ∃ F' e, pre.toFormula = .ok F' ∧ s.first? = some e ∧ ∀ m, ∃ reads o last,
      s.Passes e (w'.state side m) reads o ∧
      (F'.holds m = true ↔ Accepts (w.asks side) reads (last = true)) ∧
      ∀ σ, o = some σ → last = F.holds (w'.after side m σ) := by
  obtain ⟨F', e, d, hpre, hF', he, hsep, hcourse⟩ := visitSub_tells
    (A := courses side (w.asks side) s post) hdirect hloop hw.isLocal hw.named hw.root hw.fresh
    hw.formula ⟨hw.isLocal, rfl, hw.reach⟩ (fun S hs g hg => courses_inductive hs hg hdirect) h
  refine ⟨F', e, hpre, he, fun m => ?_⟩
  obtain ⟨reads, o, last, hpass, ht, hlast⟩ := hcourse.2 _ (.refl _) hsep m
  refine ⟨reads, o, last, hpass, Constr.truth_of_plain hF' m ▸ ht, fun σ hσ => ?_⟩
  obtain ⟨m', ho, rfl, rfl⟩ := hlast σ hσ
  rw [World.after, Model.withStore_store ho]
  exact hw.fresh.truth hw.formula m'

theorem direct_of_straight (hs : s.Straight) {b : Blk} (hb : b ∈ s.blks) : b.Direct where
  phis := Sub.simple_phis hs.closed hb
  known := List.all_eq_true.mp hs.known b hb
  calls {j target ret} hj hk := by
    obtain ⟨way, hway, -⟩ := Sub.simple_jumps hs.closed hb hj
    have hno := Sub.callFree_way? hs.callFree hb hj
    rw [hway] at hno
    obtain ⟨kind, cond, tid⟩ := j
    cases hk
    unfold Jump.way? at hway
    split at hway
    all_goals cases hway
    all_goals first | exact hno _ _ rfl | rename_i hk; cases hk

/-- The precondition of a straight subroutine with local side rules is exact: it is true in a state
just if what the run from there reads is accepted, up to the postcondition where the run returns. -/
theorem visitSub_conditions (hs : s.Straight) (hw : Checked side w s post F)
    (h : visitSub side post s w = .ok pre w') :
    ∃ F', pre.toFormula = .ok F' ∧ ∀ m, ∃ reads σ, s.Reads (w'.state side m) reads σ ∧
      (F'.holds m = true ↔ Accepts (w.asks side) reads (F.holds (w'.after side m σ) = true)) := by
  obtain ⟨F', e, hF', he, hcourse⟩ := visitSub_course (fun _ => direct_of_straight hs) hs.loopFree hw h
  refine ⟨F', hF', fun m => ?_⟩
  obtain ⟨reads, o, last, hpass, ht, hlast⟩ := hcourse m
  obtain ⟨σ, rfl⟩ := hpass.returns hs.closed (Sub.at?_entry he)
  refine ⟨reads, σ, ⟨⟨e, he, hpass⟩, fun he' hpass' => ?_⟩, hlast σ rfl ▸ ht⟩
  cases he.symm.trans he'
  exact hpass.unique hs.known hpass'

/-- Where loads are to be checked and nothing is taken for granted, a true precondition means that no
right side of a definition and no condition of a jump that the run evaluates loads from address
zero. The run may also end with a jump to a computed target. -/
theorem visitSub_nonNull (hdirect : ∀ b ∈ s.blks, b.Direct) (hloop : LoopFree s)
    (hw : Checked side w s post F) (hload : .nonNull .load .verify ∈ (w.env side).sideRules)
    (htrust : ∀ r ∈ (w.env side).sideRules, ¬ r.trusts) (h : visitSub side post s w = .ok pre w') :
    ∃ F' e, pre.toFormula = .ok F' ∧ s.first? = some e ∧ ∀ m, ∃ reads o,
      s.Passes e (w'.state side m) reads o ∧
      (∀ reads' o', s.Passes e (w'.state side m) reads' o' → reads' = reads ∧ o' = o) ∧
      (F'.holds m = true → ∀ r ∈ reads, ¬ Exp.Somewhere NullLoad r.1 r.2) := by
  obtain ⟨F', e, hF', he, hcourse⟩ := visitSub_course hdirect hloop hw h
  refine ⟨F', e, hF', he, fun m => ?_⟩
  obtain ⟨reads, o, last, hpass, ht, -⟩ := hcourse m
  have hknown : s.known := List.all_eq_true.mpr fun b hb => (hdirect b hb).known
  refine ⟨reads, o, hpass, fun _ _ => hpass.unique hknown, fun hF r hr hnull => ?_⟩
  have hverified := (ht.mp hF).verified fun σ e => Demands.verified htrust σ e false
  refine hverified.1 r hr (hnull.mono ?_)
  rintro σ e ⟨addr, n, k, ha, hy⟩
  have hasks : SideRule.Asks ⟨(w.env side).stack, (w.env side).heap⟩ (.nonNull .load .verify) σ e
      .verify ((0#k) != 0#k) := .nonNull ha hy
  rw [bne_self_eq_false] at hasks
  exact ⟨_, hload, hasks⟩

/-! A quotient is used as an address if it is not zero. The divisor is to be checked; that the address
of the load is not zero is taken for granted. -/

def quotient : Var := ⟨"R0", .word 32⟩

def dereferencing : Sub where
  name := "dereferencing"
  tid := "@dereferencing"
  addr := none
  args := []
  blks := [
    { tid := "%divide"
      phis := []
      defs := [⟨quotient, .bin .udiv (.lit 100#32) (.var quotient), "%quotient"⟩]
      jumps := [⟨.goto (.direct "%load"), .var quotient, "%if"⟩,
        ⟨.ret (.direct "%exit"), .always, "%zero"⟩] },
    { tid := "%load"
      phis := []
      defs := [⟨quotient, .load (.var ⟨"mem", .memory 32 8⟩) (.var quotient) .little 32, "%loaded"⟩]
      jumps := [⟨.ret (.direct "%exit"), .always, "%return"⟩] }]

def vigilant : World :=
  ⟨{ Env.start Arch.arm [dereferencing] with sideRules := [.nonZeroDivisor, .nonNull .load .assume] },
    Env.start Arch.arm [], 1, 0⟩

/-- Nothing is to be checked, but the quotient is to be used. -/
def directed : World :=
  ⟨{ Env.start Arch.arm [dereferencing] with reach := [("%if", true)] }, Env.start Arch.arm [], 1, 0⟩

def nulled : Term .bool := .eq (.const "R0" (.bv 32)) (.numeral 32 0)

theorem dereferencing_straight : dereferencing.Straight where
  closed := by decide
  callFree := by decide
  known := by decide
  loopFree := .of_rank (fun t => if t = "%divide" then 1 else 0) (by decide)

theorem dereferencing_walked (hw : w = vigilant ∨ w = directed) :
    Succeeds (visitSub .orig (.goal 0 "nulled" nulled none) dereferencing) w fun _ _ => True := by
  have hvars : sortByName dereferencing.vars = [quotient, ⟨"mem", .memory 32 8⟩] := by
    rw [show dereferencing.vars = [quotient, ⟨"mem", .memory 32 8⟩] by decide]
    exact List.mergeSort_of_pairwise (by decide)
  rcases hw with rfl | rfl
  all_goals
    refine .step rfl (.enter (Graph.ofSub_chain rfl (by decide) rfl rfl rfl) hvars ?_)
    refine .step rfl (.step rfl (.step rfl (.step rfl (.restoring ?_))))
    refine .settle rfl (precond?_empty rfl ..) (.bind (.bind ?_))
    refine .settle rfl (precond?_empty rfl ..) (.step rfl (.step rfl ?_))
    refine .step rfl (.step rfl (.step rfl ?_))
    dsimp only [World.setEnv, World.env]
    refine .block (precond?_empty rfl ..) (.now rfl ?_)
    dsimp only [World.setEnv, World.env, Env.addPrecond]
    refine .now rfl (.bind (.kept rfl ((precond?_insert rfl ..).trans (if_pos rfl)) (.now rfl ?_)))
    refine .step rfl (.step rfl (.step rfl ?_))
    dsimp only [World.setEnv, World.env]
    refine .block ?_ (.now rfl True.intro)
    rw [precond?_insert rfl, if_neg (by decide)]
    exact Std.HashMap.getElem?_empty ..

theorem dereferencing_visited :
    Succeeds (visitSub .orig (.goal 0 "nulled" nulled none) dereferencing) vigilant fun _ _ => True :=
  dereferencing_walked (.inl rfl)

theorem visitSub_conditions_dereferencing : ∃ pre w' F',
    visitSub .orig (.goal 0 "nulled" nulled none) dereferencing vigilant = .ok pre w' ∧
      pre.toFormula = .ok F' ∧ ∀ m, ∃ reads σ, dereferencing.Reads (w'.state .orig m) reads σ ∧
        (F'.holds m = true ↔
          Accepts (vigilant.asks .orig) reads (nulled.holds (w'.after .orig m σ) = true)) := by
  obtain ⟨pre, w', h, -⟩ := dereferencing_visited
  have hchecked : Checked .orig vigilant dereferencing (.goal 0 "nulled" nulled none) nulled :=
    ⟨.of_empty rfl, rfl, by decide, nofun, .goal (by decide) .., Constr.toFormula_goal ..⟩
  obtain ⟨F', hF', hm⟩ := visitSub_conditions dereferencing_straight hchecked h
  exact ⟨pre, w', F', h, hF', hm⟩

/-! A word is loaded, and control goes to the word that is found there. Only the first of the two loads
is checked. -/

def leaping : Sub where
  name := "leaping"
  tid := "@leaping"
  addr := none
  args := []
  blks := [{
    tid := "%only"
    phis := []
    defs := [⟨quotient, .load (.var ⟨"mem", .memory 32 8⟩) (.var quotient) .little 32, "%loaded"⟩]
    jumps := [⟨.goto (.indirect (.load (.var ⟨"mem", .memory 32 8⟩) (.var quotient) .little 32)),
      .always, "%leap"⟩] }]

def suspicious : World :=
  ⟨{ Env.start Arch.arm [leaping] with sideRules := [.nonNull .load .verify] },
    Env.start Arch.arm [], 1, 0⟩

theorem leaping_direct {b : Blk} (hb : b ∈ leaping.blks) : b.Direct := by
  cases List.mem_singleton.mp hb
  refine ⟨rfl, by decide, fun hj => ?_⟩
  cases List.mem_singleton.mp hj
  nofun

theorem leaping_visited :
    Succeeds (visitSub .orig (.goal 0 "nulled" nulled none) leaping) suspicious fun _ _ => True := by
  have hvars : sortByName leaping.vars = [quotient, ⟨"mem", .memory 32 8⟩] := by
    rw [show leaping.vars = [quotient, ⟨"mem", .memory 32 8⟩] by decide]
    exact List.mergeSort_of_pairwise (by decide)
  refine .step rfl (.enter (Graph.ofSub_lone rfl rfl) hvars ?_)
  refine .step rfl (.step rfl (.step rfl (.step rfl (.restoring ?_))))
  refine .settle rfl (precond?_empty rfl ..) (.step rfl (.step rfl ?_))
  refine .step rfl (.step rfl (.step rfl ?_))
  dsimp only [World.setEnv, World.env]
  exact .block (precond?_empty rfl ..) (.now rfl True.intro)

theorem visitSub_nonNull_leaping : ∃ pre w' F' e,
    visitSub .orig (.goal 0 "nulled" nulled none) leaping suspicious = .ok pre w' ∧
      pre.toFormula = .ok F' ∧ leaping.first? = some e ∧ ∀ m, ∃ reads o,
        leaping.Passes e (w'.state .orig m) reads o ∧
        (∀ reads' o', leaping.Passes e (w'.state .orig m) reads' o' → reads' = reads ∧ o' = o) ∧
        (F'.holds m = true → ∀ r ∈ reads, ¬ Exp.Somewhere NullLoad r.1 r.2) := by
  obtain ⟨pre, w', h, -⟩ := leaping_visited
  have hchecked : Checked .orig suspicious leaping (.goal 0 "nulled" nulled none) nulled :=
    ⟨.of_empty rfl, rfl, by decide, nofun, .goal (by decide) .., Constr.toFormula_goal ..⟩
  have hloop : LoopFree leaping := .of_rank (fun _ => 0) (by decide)
  obtain ⟨F', e, hF', he, hm⟩ := visitSub_nonNull (fun _ => leaping_direct) hloop hchecked
    List.mem_cons_self (by decide) h
  exact ⟨pre, w', F', e, h, hF', he, hm⟩

end Walk

end Precond

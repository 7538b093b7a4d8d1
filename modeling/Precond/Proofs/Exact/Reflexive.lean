import Precond.Proofs.Compare.Fair
import Precond.Proofs.Compare.Opening
import Precond.Proofs.Exact.Translation

/-! A program compared with itself is equivalent to itself: the constraint of the comparison is true in
every model (`Analysis.setup_reflexive`), apart from the goals about divisors, which only the second
program has to establish (`Analysis.setup_reflexive_spare`). -/

namespace Precond

open IR Walk

namespace Compare.Opening

variable {f : Sub} {w w₁ w₂ : World} {cmps : List Comparator} {preMod pre : Constr}

/-- The nodes of the constraint have numbers of their own. -/
theorem numbered (op : Opening cmps f f w) (hr : ∀ cmp ∈ cmps, cmp.Reads fun _ => False)
    (hw : Matched w) (hat : op.scene.At op.start)
    (hother : w₁.env .orig = op.start.env .orig)
    (hmod : visitSub .mod op.post f op.start = .ok preMod w₁)
    (horig : visitSub .orig preMod f w₁ = .ok pre w₂) :
    (Constr.clause w₂.nodes [op.entry] [pre]).toFormula =
      (Constr.clause w₂.nodes [op.entry] [pre]).plain := by
  obtain ⟨K₁, K₂, K, hb₁, hb₂, hb, -, hpost, -, hentry⟩ := op.built hr
  have hK : Constr.Register K op.start.nodes :=
    (hb.ledger (hb₂.ledger (hb₁.ledger .empty))).register
  have hroot (side : Side) : (op.start.env side).frame.root = none := by
    obtain ⟨_, _, _, _, he⟩ := (op.ready hw hat side).env
    rw [he, hw.frame]
    rfl
  have hroot₁ : (w₁.env .orig).frame.root = none := hother ▸ hroot .orig
  obtain ⟨K₃, hgrows₃, hK₃, hpreMod⟩ := visitSub_register hK hpost (by rw [hroot]; nofun) hmod
  obtain ⟨K₄, hgrows₄, hK₄, hpre⟩ := visitSub_register hK₃ hpreMod (by rw [hroot₁]; nofun) horig
  have hadd := hK₄.add (c := .clause w₂.nodes [op.entry] [pre]) rfl fun d hd => by
    rcases List.mem_cons.mp hd with rfl | hd
    · exact hgrows₄ _ (hgrows₃ _ hentry)
    · exact List.mem_singleton.mp hd ▸ hpre
  exact hadd.toNumbered.toFormula_eq (.inr rfl)

end Compare.Opening

namespace Analysis

variable {p : Program} {o : Options} {f : Sub} {s : Setup} {w : World}

/-- The constraint of a comparison with itself has a formula, and holds in every model apart from the
goals that are not proved. -/
theorem setup_self_holds (ho : o.Plain) (hf : p.find? o.func = some f) (hc : Comparable p f)
    (h : setup o [p, p] = .ok (s, w)) :
    (∃ F, s.pre.toFormula = .ok F ∧ ∀ m, F.holds m = s.pre.holds m) ∧
      ∀ m, (s.pre.spare (sparing o)).holds m = true := by
  obtain ⟨f', cmps, w₁, hf', hcmps, hsubs⟩ := setup_self ho h
  cases hf.symm.trans hf'
  have hw : Compare.Matched (plainStart p o) := matched hc.arch
  obtain ⟨rfl, husual⟩ := comparators_usual ho hw hcmps
  obtain ⟨op, preMod, w₂, pre, w₃, hmod, horig, hpre, -⟩ := Compare.subs_opening hsubs
  obtain ⟨hu, hrel⟩ := husual (S := op.scene) (op.varsOf_eq hw) fun hcalls g hg => ⟨hcalls, hg⟩
  have hr : ∀ cmp ∈ cmps, cmp.Reads fun _ => False := fun cmp hcmp =>
    let ⟨_, h⟩ := hu cmp hcmp
    h.reads
  obtain ⟨hat, ⟨hproper, hpost⟩, hentry, hlevel⟩ := op.levels hw hu hrel
  have hfair : (op.duo hr hw (sparing o) preMod).Fair := fair hc hat
  obtain ⟨hpreProper, hholds⟩ := op.closes hat hfair hproper hpost (owns_apart hc hat) hmod horig
  have hsingle {c : Constr} (hc : c.Proper) : ∀ d ∈ [c], d.Proper :=
    fun d hd => List.mem_singleton.mp hd ▸ hc
  rw [hpre]
  constructor
  · obtain ⟨F, hF, hm⟩ := Constr.Proper.plain (.clause w₃.nodes [op.entry] [pre])
      (Constr.proper_clause (hsingle hentry) (hsingle hpreProper))
    have hother : w₂.env .orig = op.start.env .orig := visitSub_other (hfair.isLocal .mod) hmod nofun
    exact ⟨F, (op.numbered hr hw hat hother hmod horig).trans hF, hm⟩
  · intro m
    rw [Constr.holds_spare_clause]
    cases he : op.entry.holds m with
    | false => simp [he]
    | true => simp [hholds m (hlevel m he)]

/-- A program is equivalent to itself: whatever the comparison asks for is true in every model. -/
theorem setup_reflexive (ho : o.Plain) (hdiv : o.checkDivByZero = false)
    (hf : p.find? o.func = some f) (hc : Comparable p f) (h : setup o [p, p] = .ok (s, w)) :
    ∃ F, s.pre.toFormula = .ok F ∧ ∀ m, F.holds m = true := by
  obtain ⟨⟨F, hF, hm⟩, hholds⟩ := setup_self_holds ho hf hc h
  have hnothing (name : String) : sparing o name = false := by rw [sparing, hdiv, Bool.false_and]
  refine ⟨F, hF, fun m => ?_⟩
  rw [hm, ← Constr.spare_nothing hnothing s.pre]
  exact hholds m

/-- Where divisors are checked, all is true in every model but that a divisor is not zero: the first
program does not take for granted what the second one has to establish there. -/
theorem setup_reflexive_spare (ho : o.Plain) (hf : p.find? o.func = some f) (hc : Comparable p f)
    (h : setup o [p, p] = .ok (s, w)) : ∃ F, s.pre.toFormula = .ok F ∧
      ∀ m, F.holds m = s.pre.holds m ∧ (s.pre.spare isDivisorGoal).holds m = true := by
  cases hdiv : o.checkDivByZero with
  | false =>
    obtain ⟨⟨F, hF, hm⟩, -⟩ := setup_self_holds ho hf hc h
    obtain ⟨F', hF', htrue⟩ := setup_reflexive ho hdiv hf hc h
    cases hF.symm.trans hF'
    exact ⟨F, hF, fun m => ⟨hm m, Constr.holds_spare _ (hm m ▸ htrue m)⟩⟩
  | true =>
    obtain ⟨⟨F, hF, hm⟩, hholds⟩ := setup_self_holds ho hf hc h
    have hdivisors : sparing o = isDivisorGoal := by
      funext name
      rw [sparing, hdiv, Bool.true_and]
    exact ⟨F, hF, fun m => ⟨hm m, hdivisors ▸ hholds m⟩⟩

/-! ### A quotient by a word from memory -/

def quotient : Exp := .bin .udiv (.var ⟨"R1", .word 32⟩)
  (.load (.var ⟨"mem", .memory 32 8⟩) (.var ⟨"R1", .word 32⟩) .little 32)

def quotientBlk : Blk where
  tid := "%divide"
  phis := []
  defs := [⟨⟨"R0", .word 32⟩, quotient, "%quotient"⟩]
  jumps := [⟨.ret (.direct "%exit"), .always, "%return"⟩]

def divide : Sub where
  name := "divide"
  tid := "@divide"
  addr := none
  args := []
  blks := [quotientBlk]

def dividing : Program := ⟨Arch.arm, [divide]⟩

/-- Accesses are checked, and divisors too if that is asked for. -/
def checking (divisors : Bool) : Options :=
  { func := "divide", checkNullDerefs := true, checkInvalidDerefs := true, checkDivByZero := divisors }

theorem checking_plain (divisors : Bool) : (checking divisors).Plain :=
  ⟨rfl, rfl, rfl, rfl, rfl, rfl, rfl, rfl, rfl⟩

theorem dividing_comparable : Comparable dividing divide where
  arch := by decide
  known := by decide
  determined := by decide
  apart := by decide
  free := by decide

theorem quotient_sorted : quotient.HasSort (.bv 32) := by
  have hreg : (Exp.var ⟨"R1", .word 32⟩).HasSort (.bv 32) := .var rfl
  exact .arith rfl rfl hreg (.load (.var rfl) hreg (by decide) (by decide))

/-- The variables are bound to terms of their sorts, and conditions are local ones. -/
structure Prepared (side : Side) (w : World) : Prop where
  reach : (w.env side).reach = []
  isLocal : ∀ r ∈ (w.env side).sideRules, r.isLocal
  bound : ∀ v ∈ divide.vars, ∃ t, (w.env side).vars.lookup v = some t ∧ v.type.sort = .ok t.1

section

variable {side : Side} {w w' : World} {post : Constr}

theorem Prepared.of_env (h : Prepared side w) (hr : (w'.env side).reach = (w.env side).reach)
    (hs : (w'.env side).sideRules = (w.env side).sideRules)
    (hv : (w'.env side).vars = (w.env side).vars) : Prepared side w' :=
  ⟨hr.trans h.reach, hs ▸ h.isLocal, hv ▸ h.bound⟩

theorem quotient_assigned (h : Prepared side w) :
    Succeeds (assign side post ⟨"R0", .word 32⟩ quotient) w fun _ _ => True := by
  have hfree : Bound (w.env side).vars quotient :=
    fun v hv => h.bound v (by revert hv; revert v; decide)
  obtain ⟨x, hx, hs⟩ := h.bound ⟨"R0", .word 32⟩ (by decide)
  obtain ⟨t, hooks, w₁, ht, hsort, -⟩ | ⟨f, w₁, -, e, he, r, hr, hlocal, -⟩ :=
    (translate_exact quotient_sorted hfree).2
  · refine .step ht ?_
    have hx₁ : (w₁.env side).vars.lookup ⟨"R0", .word 32⟩ = some x := by
      rw [(translateChecked_tells (by decide) h.isLocal ht).1.vars]
      exact hx
    have hon : on side (Env.mkVar ⟨"R0", .word 32⟩) w₁ = .ok x w₁ := by
      rw [on, Env.mkVar_of_lookup hx₁]
      cases side <;> rfl
    have hsame : ¬ t.1 ≠ x.1 := fun hne => hne (hsort.trans (Except.ok.inj hs))
    refine .step hon ?_
    rw [if_neg hsame]
    exact .bind ((Succeeds.guard ..).mono fun c w₂ _ => .step rfl (.guard ..))
  · rw [h.isLocal r hr] at hlocal
    cases hlocal

theorem divide_elts {expand : Expand} (h : Prepared side w)
    (hret : (w.env side).frame.retPost = some post) :
    Succeeds (visitElts expand side post quotientBlk.elts) w fun _ _ => True := by
  have hforced : forced? (w.env side) ⟨.ret (.direct "%exit"), .always, "%return"⟩ = none := by
    rw [forced?, h.reach]
    rfl
  have hafter : jumpPre expand side post ⟨.ret (.direct "%exit"), .always, "%return"⟩ w =
      .ok post w := by
    show EStateM.Result.ok ((w.env side).frame.retPost.getD post) w = _
    rw [hret]
    rfl
  have hjump : visitJump expand side post ⟨.ret (.direct "%exit"), .always, "%return"⟩ w =
      .ok post w := by
    rw [visitJump, bind_of_ok (show Walk.env side w = .ok (w.env side) w from rfl), hforced]
    exact (bind_of_ok hafter).trans rfl
  exact .bind (.step rfl (.now hjump (quotient_assigned h)))

theorem divide_visited (hf : (w.env side).frame = .start) (h : Prepared side w) :
    Succeeds (visitSub side post divide) w fun _ _ => True := by
  refine .step rfl ?_
  obtain ⟨n, hn⟩ : ∃ n, depthBound (w.env side) divide = n + 1 := ⟨_, rfl⟩
  have hvars : bindVars side divide (attached w side) = .ok PUnit.unit (attached w side) :=
    bindVars_eq fun v hv => by
      obtain ⟨t, ht, -⟩ := h.bound v hv
      rw [attached, World.env_setEnv]
      exact ⟨t, ht⟩
  obtain ⟨g, hg⟩ : ∃ g, Flow.Graph.ofSub divide = .ok g := ⟨_, rfl⟩
  have hshape : ∀ g ∈ (Flow.Graph.ofSub divide).toOption, g.entry = "%divide" ∧
      g.forward "%divide" = [] ∧ g.succsOf "%divide" = [] ∧ g.restrict [] "%divide" = [] ∧
      g.blocks.lookup "%divide" = some quotientBlk ∧
      (g.fallthrough.lookup "%divide").join = none := by decide
  obtain ⟨hentry, hforward, hsuccs, hrestrict, hblk, hfall⟩ := hshape g (by rw [hg]; rfl)
  have henv : (opened (attached w side) side divide post g).env side = { w.env side with
      attached := true
      frame := { Frame.start with
        root := some ("@divide", post.id), graph := some g, retPost := some post } } := by
    rw [opened, World.env_setEnv, attached, World.env_setEnv, hf]
    rfl
  rw [hn]
  refine .opened hg hvars ?_
  rw [hentry]
  generalize opened (attached w side) side divide post g = w₁ at henv
  refine .settle (by rw [henv]) ?_ ?_
  · rw [henv]
    exact precond?_empty rfl ..
  rw [hforward, hrestrict, settleBlock, hsuccs]
  refine .step rfl (.step rfl ?_)
  rw [trailing, hfall, hblk]
  have hafter : (do present (← Walk.env side).frame.retPost : Walk Constr) w₁ = .ok post w₁ := by
    show present (w₁.env side).frame.retPost w₁ = _
    rw [henv]
    rfl
  refine .step hafter (.step rfl (.step rfl ?_))
  refine .block ?_ ?_
  · rw [World.env_setEnv, henv]
    exact precond?_empty rfl ..
  refine .step rfl (.bind ((divide_elts (h.of_env ?_ ?_ ?_) ?_).mono fun c w' _ =>
    .step rfl (.now rfl True.intro)))
  all_goals
    dsimp only
    rw [World.env_setEnv, World.env_setEnv, henv]

end

/-- The comparison of the program with itself can be set up. -/
theorem setup_dividing (divisors : Bool) :
    ∃ s w, setup (checking divisors) [dividing, dividing] = .ok (s, w) := by
  let start := plainStart dividing (checking divisors)
  let cmps : List Comparator := [.stackPointers, .memories, .emptyPost]
  have hbuild : setup (checking divisors) [dividing, dividing] =
      build (Compare.subs cmps divide divide) start (Setup.mk · divide (some divide)) := by
    cases divisors <;> rfl
  have hcmps : comparators (checking divisors) divide divide start = .ok cmps start := by
    cases divisors <;> rfl
  have hw : Compare.Matched start := matched dividing_comparable.arch
  obtain ⟨-, husual⟩ := comparators_usual (checking_plain divisors) hw hcmps
  have hsortable : ∀ v ∈ (divide.vars ++ Arch.arm.registers).eraseDups,
      Sortable (fun _ => False) v := by
    have hsorted : ∀ v ∈ (divide.vars ++ Arch.arm.registers).eraseDups,
        v.type.sort.toOption.isSome := by decide
    intro v hv f hf
    have hsome := hsorted v hv
    rw [hf] at hsome
    cases hsome
  have hsubs : Walk.Outcome (fun _ _ => True) (fun _ => False) (Compare.subs cmps divide divide) start := by
    refine Compare.subs_outcome (a := fun _ => Arch.arm) ⟨?_, hw.tidy⟩ ?_ hsortable hsortable
      fun op hop => ?_
    · intro side
      cases side <;> rfl
    · simp only [cmps, List.forall_mem_cons]
      exact ⟨.stackPointers fun _ => ⟨32, rfl⟩, .memories nofun, .emptyPost hsortable, nofun⟩
    · obtain ⟨hu, hrel⟩ := husual (S := op.scene) (op.varsOf_eq hw) fun hcalls g hg => ⟨hcalls, hg⟩
      obtain ⟨hat, -⟩ := op.levels hw hu hrel
      have hready (side : Side) : (op.start.env side).frame = .start ∧ Prepared side op.start := by
        have hr := op.ready hw hat side
        obtain ⟨_, _, _, _, he⟩ := hr.env
        refine ⟨he ▸ hw.frame side, ?_, ?_, fun v hv => ?_⟩
        · rw [he]
          cases side <;> rfl
        · rw [he]
          cases side with
          | orig => exact fun r hr => (sideRules_orig _ r hr).1
          | mod => exact (sideRules_mod _).1
        · obtain ⟨t, ht⟩ := Option.ne_none_iff_exists'.mp
            (hr.bound.mpr (List.mem_eraseDups.mpr (List.mem_append_left _ hv)))
          obtain ⟨_, s, rfl, hs, -⟩ := (hop.tidy side).vars ht
          exact ⟨_, ht, hs⟩
      obtain ⟨preMod, w₁, hmod, -⟩ : Succeeds (visitSub .mod op.post divide) op.start fun _ _ => True :=
        divide_visited (hready .mod).1 (hready .mod).2
      have hkept : w₁.env .orig = op.start.env .orig :=
        visitSub_other (hready .mod).2.isLocal hmod nofun
      have horig : Prepared .orig w₁ :=
        (hready .orig).2.of_env (by rw [hkept]) (by rw [hkept]) (by rw [hkept])
      refine Walk.Outcome.of_succeeds (.step hmod (.bind ?_))
      exact (divide_visited (by rw [hkept]; exact (hready .orig).1) horig).mono fun _ _ _ =>
        .now rfl True.intro
  obtain ⟨c, w, hc, -⟩ := hsubs.succeeds fun _ => id
  rw [hbuild, build, hc]
  exact ⟨_, _, rfl⟩

theorem setup_reflexive_dividing :
    ∃ s w F, setup (checking false) [dividing, dividing] = .ok (s, w) ∧ s.pre.toFormula = .ok F ∧
      ∀ m, F.holds m = true := by
  obtain ⟨s, w, h⟩ := setup_dividing false
  obtain ⟨F, hF, hm⟩ := setup_reflexive (checking_plain false) rfl rfl dividing_comparable h
  exact ⟨s, w, F, h, hF, hm⟩

theorem setup_reflexive_spare_dividing :
    ∃ s w F, setup (checking true) [dividing, dividing] = .ok (s, w) ∧ s.pre.toFormula = .ok F ∧
      ∀ m, F.holds m = s.pre.holds m ∧ (s.pre.spare isDivisorGoal).holds m = true := by
  obtain ⟨s, w, h⟩ := setup_dividing true
  obtain ⟨F, hF, hm⟩ := setup_reflexive_spare (checking_plain true) rfl dividing_comparable h
  exact ⟨s, w, F, h, hF, hm⟩

end Analysis

end Precond

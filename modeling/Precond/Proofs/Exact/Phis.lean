import Precond.Proofs.Exact.Conditions
import Precond.Proofs.Exact.Unrolling
import Precond.Proofs.Flow.Copies
import Precond.Proofs.Walk.Linear
import Precond.Proofs.Walk.Nesting
import Precond.Proofs.Walk.Respects

/-! Phis. Where the block is known that control comes from, and all phis of a block list it, they are
visited like definitions (`Walk.visitPhis_taken`). So they are assigned one after the other: the
precondition of the block says of a state what the precondition of the rest of the block says of the
state behind these assignments, and all values are those of the state in front of the block where no
phi mentions what a phi before it assigns (`Walk.visitBlock_phis`). The block that a copy is taken to
be entered from need not be the one that control comes from (`Walk.visitPhi_of_way`). -/

namespace Precond

open IR Precond.Flow Relation

namespace IR

/-- What a phi assigns if control comes from a block. -/
def Phi.taken (p : String) (φ : Phi) : Def := ⟨φ.lhs, (φ.along? p).getD φ.first, φ.tid⟩

/-- What the phis of a block assign if control comes from a block. -/
def Blk.moves (b : Blk) (p : String) : List Def := b.phis.map (Phi.taken p)

/-- All right sides are evaluated in the state `σ`, and their values are assigned afterwards. -/
inductive Together (σ : Store) : List Def → Store → Store → Prop
  | nil : Together σ [] τ τ
  | cons : d.rhs.Yields σ x → Together σ ds (Function.update τ d.lhs x) τ' →
    Together σ (d :: ds) τ τ'

/-- No right side mentions what is assigned before. -/
def Independent (ds : List Def) : Prop := ds.Pairwise fun d d' => d.lhs ∉ d'.rhs.freeVars

instance (ds : List Def) : Decidable (Independent ds) := inferInstanceAs (Decidable (ds.Pairwise _))

variable {ds : List Def} {σ τ τ' : Store} {reads : List Reading}

theorem Defines.together (h : Defines ds τ reads τ') (hi : Independent ds)
    (hσ : ∀ d ∈ ds, ∀ v ∈ d.rhs.freeVars, τ v = σ v) : Together σ ds τ τ' := by
  induction ds generalizing τ reads with
  | nil =>
    cases h
    exact .nil
  | cons d ds ih =>
    cases h with
    | cons hx hds =>
      obtain ⟨hfirst, hrest⟩ := List.pairwise_cons.mp hi
      refine .cons (hx.congr (hσ d List.mem_cons_self)) (ih hds hrest fun d' hd' v hv => ?_)
      have hne : v ≠ d.lhs := fun heq => hfirst d' hd' (heq ▸ hv)
      rw [Function.update_of_ne hne]
      exact hσ d' (List.mem_cons_of_mem d hd') v hv

end IR

namespace Walk

variable {side : Side} {w w' w₁ : World} {b : Blk} {p : String} {n : Nat} {post c : Constr}
  {es : List Elt} {K : Constr → Prop} {targets : Table String Constr} {ret : Constr}
  {P : Side → Env}

/-! ### The elements of a block, in a frame -/

/-- Elements may be those of some block. -/
theorem exists_elts (es : List Elt) : ∃ b : Blk, ∀ e ∈ es, e ∈ b.elts := by
  induction es with
  | nil => exact ⟨⟨"", [], [], []⟩, fun _ he => absurd he List.not_mem_nil⟩
  | cons e es ih =>
    obtain ⟨b, hb⟩ := ih
    have hcons {b' : Blk} (hsub : b.elts.Sublist b'.elts) (he : e ∈ b'.elts) : ∀ x ∈ e :: es, x ∈ b'.elts :=
      List.forall_mem_cons.mpr ⟨he, fun x hx => hsub.mem (hb x hx)⟩
    cases e with
    | phi φ => exact ⟨{ b with phis := φ :: b.phis }, hcons (by simp [Blk.elts]) (by simp [Blk.elts])⟩
    | define d => exact ⟨{ b with defs := d :: b.defs }, hcons (by simp [Blk.elts]) (by simp [Blk.elts])⟩
    | jump j => exact ⟨{ b with jumps := j :: b.jumps }, hcons (by simp [Blk.elts]) (by simp [Blk.elts])⟩

/-- Elements of a block keep all that a walk keeps, and the frame. -/
theorem visitElts_rests (es : List Elt) (post : Constr) :
    Keeps.Rests (.any P) (visitElts (enterSub (settleNode n)) side post es) := by
  obtain ⟨b, hb⟩ := exists_elts es
  exact .visitElts (expands_any n) (s := b.alone "" "") True.intro (List.mem_singleton_self b) hb post

theorem visitElts_named (h : visitElts (enterSub (settleNode n)) side post es w = .ok c w₁)
    (hn : (w.env side).Named) : (w₁.env side).Named := by
  obtain ⟨b, hb⟩ := exists_elts es
  have hrespects : Respects side (w.env side).sideRules .any Granting
      (visitElts (enterSub (settleNode n)) side post es) :=
    .visitElts (fun post c hc => .enterSub (.settleNode n) post hc) post (.any b) hb
  exact (hrespects.of_ok rfl (.any _) h side).2.named hn

/-- What elements of a block come to is a constraint of a register, like what they start from. -/
theorem visitElts_register (hK : Constr.Register K w.nodes) (hp : Placed side K targets ret w)
    (hpost : K post) (h : visitElts (enterSub (settleNode n)) side post es w = .ok c w₁) :
    ∃ K₁, (∀ c, K c → K₁ c) ∧ Constr.Register K₁ w₁.nodes ∧ Placed side K₁ targets ret w₁ ∧ K₁ c := by
  obtain ⟨b, hb⟩ := exists_elts es
  let T := Twin.alone (.any fun side => (w.env side).policy) side (w.env side).unrollBound
  have hx : T.Expanded none (enterSub (settleNode n)) fun _ => enterSub (settleNode n) :=
    expanded_lockstep fun hs hg post post' t u K => settleNode_lockstep rfl n hs hg post post' t u K
  have hplaced : T.Placed K w w := {
    retPost := held_option fun c hc => Option.some.inj (hp.retPost.symm.trans hc) ▸ hp.retK
    target := fun t => held_option fun c hc => hp.targetK (hp.table ▸ hc)
    pred := rfl }
  have hheld : T.Held K post post := ⟨hpost, True.intro⟩
  have halike := Alike.visitElts hx (s := b.alone "" "") True.intro (List.mem_singleton_self b) hb
    (linked_alone w.under_any rfl hK) hplaced hheld
  obtain ⟨_, _, K₁, -, hstep⟩ := halike.run c w₁ h True.intro
  have hframe : (w₁.env side).frame = (w.env side).frame := hstep.frame
  refine ⟨K₁, hstep.grows, hstep.linked.register True.intro, ?_, hstep.result.node⟩
  exact {
    retPost := hframe ▸ hp.retPost
    table := hframe ▸ hp.table
    retK := hstep.grows _ hp.retK
    targetK := fun hk => hstep.grows _ (hp.targetK hk) }

/-! ### Phis as definitions -/

/-- A phi that lists the block that control comes from is visited like a definition. -/
theorem visitPhi_taken {φ : Phi} (hp : (w.env side).frame.pred = some p)
    (hl : (φ.along? p).isSome) (post : Constr) :
    visitPhi side post φ w = assign side post φ.lhs (φ.taken p).rhs w := by
  obtain ⟨value, hv⟩ := Option.isSome_iff_exists.mp hl
  have hbind : (w.env side).frame.pred.bind φ.along? = some value := by rw [hp]; exact hv
  refine (bind_of_ok rfl).trans ?_
  rw [hbind, Phi.taken, hv]
  rfl

/-- Phis that list the block that control comes from are visited like definitions. -/
theorem visitPhis_taken {φs : List Phi} (hp : (w.env side).frame.pred = some p)
    (hl : ∀ φ ∈ φs, (φ.along? p).isSome) (es : List Elt) (post : Constr) :
    visitElts (enterSub (settleNode n)) side post (φs.map .phi ++ es) w =
      visitElts (enterSub (settleNode n)) side post ((φs.map (Phi.taken p)).map .define ++ es) w := by
  induction φs with
  | nil => rfl
  | cons φ φs ih =>
    have hrest := ih fun φ' hφ' => hl φ' (List.mem_cons_of_mem φ hφ')
    show EStateM.bind (visitElts (enterSub (settleNode n)) side post (φs.map .phi ++ es))
        (fun pre => visitPhi side pre φ) w =
      EStateM.bind (visitElts (enterSub (settleNode n)) side post
        ((φs.map (Phi.taken p)).map .define ++ es)) (fun pre => assign side pre φ.lhs (φ.taken p).rhs) w
    rw [EStateM.bind, EStateM.bind, hrest]
    cases hrun : visitElts (enterSub (settleNode n)) side post
        ((φs.map (Phi.taken p)).map .define ++ es) w with
    | error f w₁ => rfl
    | ok pre w₁ =>
      have hkept := (visitElts_rests _ post).of_ok w.under_any hrun
      exact visitPhi_taken ((hkept.env side).frame ▸ hp) (hl φ List.mem_cons_self) pre

/-- A block whose phis list the block that control comes from is visited like the block that has
definitions in their place, whatever side rules there are. -/
theorem visitBlock_moves (hp : (w.env side).frame.pred = some p)
    (hl : ∀ φ ∈ b.phis, (φ.along? p).isSome) (post : Constr) :
    visitBlock (enterSub (settleNode n)) side post b w =
      visitBlock (enterSub (settleNode n)) side post
        { b with phis := [], defs := b.moves p ++ b.defs } w := by
  have hentered : ((entered w side b).env side).frame.pred = some p := by
    rw [entered, World.env_setEnv]
    exact hp
  have helts := visitPhis_taken (n := n) hentered hl (b.defs.map .define ++ b.jumps.map .jump) post
  rw [← List.append_assoc, ← List.append_assoc, ← List.map_append] at helts
  rw [visitBlock_eq, visitBlock_eq, show visitElts (enterSub (settleNode n)) side post b.elts
    (entered w side b) = _ from helts]
  rfl

/-- The precondition of definitions accepts what they read. -/
theorem visitDefines_heeds {ds : List Def} (hlocal : ∀ r ∈ (w.env side).sideRules, r.isLocal)
    (hn : (w.env side).Named) (hk : ∀ d ∈ ds, d.rhs.known) (hpost : post.Formal)
    (h : visitElts (enterSub (settleNode n)) side post (ds.map .define) w = .ok c w₁) :
    c.Formal ∧ ∀ m, Heeds (w.asks side) (w₁.env side).vars ds c post m := by
  let b : Blk := { tid := "", phis := [], defs := ds, jumps := [] }
  obtain ⟨hnamed, hformal, hheeds⟩ := visitDefs_accepts (V := (w₁.env side).vars)
    (S := .any fun side => (w.env side).policy) (expands_any n) (s := b.alone "" "") (b := b)
    True.intro (List.mem_singleton_self b) (fun d hd => ⟨hd, hk d hd⟩) w.under_any ⟨hlocal, rfl⟩ hpost h
  exact ⟨hformal, hheeds (.refl _) (hnamed hn).separate⟩

/-- A block for which no precondition is kept, after its elements have been visited. -/
theorem visitBlock_ok_iff {expand : Expand}
    (hkept : (w.env side).precond? b.tid (w.env side).frame.unroll = none) :
    visitBlock expand side post b w = .ok c w' ↔
      ∃ w₁, visitElts expand side post b.elts (entered w side b) = .ok c w₁ ∧
        w' = w₁.setEnv side ((w₁.env side).addPrecond b.tid (w₁.env side).frame.unroll c) := by
  rw [visitBlock_eq, hkept]
  cases visitElts expand side post b.elts (entered w side b) with
  | error f w₁ => exact iff_of_false nofun fun ⟨_, h, _⟩ => nomatch h
  | ok pre w₁ =>
    constructor
    · rintro ⟨⟩
      exact ⟨w₁, rfl, rfl⟩
    · rintro ⟨_, ⟨⟩, rfl⟩
      rfl

/-- What is found where a block is entered. -/
structure Meets (side : Side) (p : String) (K : Constr → Prop) (targets : Table String Constr)
    (ret : Constr) (w : World) : Prop extends Placed side K targets ret w where
  named : (w.env side).Named
  isLocal : ∀ r ∈ (w.env side).sideRules, r.isLocal
  pred : (w.env side).frame.pred = some p
  register : Constr.Register K w.nodes

theorem Meets.entered (h : Meets side p K targets ret w) (b : Blk) :
    Meets side p K targets ret (Walk.entered w side b) := by
  have henv : (Walk.entered w side b).env side = { w.env side with
    frame := { (w.env side).frame with block := some b.tid } } := World.env_setEnv ..
  exact {
    retPost := henv ▸ h.retPost
    table := henv ▸ h.table
    retK := h.retK
    targetK := h.targetK
    named := henv ▸ h.named.mono rfl rfl rfl (Nat.le_refl _)
    isLocal := henv ▸ h.isLocal
    pred := henv ▸ h.pred
    register := by rw [Walk.entered, World.nodes_setEnv]; exact h.register }

theorem Meets.visitElts (h : Meets side p K targets ret w) (hpost : K post)
    (hv : visitElts (enterSub (settleNode n)) side post es w = .ok c w₁) :
    w₁.asks side = w.asks side ∧ ∃ K₁, Meets side p K₁ targets ret w₁ ∧ K₁ c := by
  obtain ⟨K₁, -, hK₁, hplaced, hc⟩ := visitElts_register h.register h.toPlaced hpost hv
  have hkeep := (visitElts_rests es post).of_ok w.under_any hv
  have hasking : Asking side (w.asks side) w₁ := (Asking.mk h.isLocal rfl).before hkeep.before
  exact ⟨hasking.asks, K₁, {
    toPlaced := hplaced
    named := visitElts_named hv h.named
    isLocal := hasking.isLocal
    pred := (hkeep.env side).frame ▸ h.pred
    register := hK₁ }, hc⟩

/-- The phis of a block that list the block that control comes from are assigned one after the other,
before the rest of the block. They are assigned at once if none mentions what is assigned before it. -/
theorem visitBlock_phis (hw : Meets side p K targets ret w) (hpost : K post)
    (hlisted : ∀ φ ∈ b.phis, ∃ value, φ.along? p = some value ∧ value.known)
    (hkept : (w.env side).precond? b.tid (w.env side).frame.unroll = none)
    (h : visitBlock (enterSub (settleNode n)) side post b w = .ok c w') :
    ∃ rest w₁, visitBlock (enterSub (settleNode n)) side post { b with phis := [] } w = .ok rest w₁ ∧
      ∀ F, rest.toFormula = .ok F → ∃ G, c.toFormula = .ok G ∧ ∀ m, ∃ m' reads,
        m.Off (w'.env side).vars m' ∧
        Defines (b.moves p) (w'.state side m) reads (w'.state side m') ∧
        (Independent (b.moves p) →
          Together (w'.state side m) (b.moves p) (w'.state side m) (w'.state side m')) ∧
        (G.holds m = true ↔ Accepts (w.asks side) reads (F.holds m' = true)) ∧
        ((w.env side).sideRules = [] → G.holds m = F.holds m') := by
  have hmoves : ∀ d ∈ b.moves p, d.rhs.known := by
    intro d hd
    obtain ⟨φ, hφ, rfl⟩ := List.mem_map.mp hd
    obtain ⟨value, hv, hk⟩ := hlisted φ hφ
    rw [Phi.taken, hv]
    exact hk
  rw [visitBlock_moves hw.pred fun φ hφ =>
    Option.isSome_iff_exists.mpr ((hlisted φ hφ).imp fun _ hv => hv.1)] at h
  obtain ⟨w₂, hrun, rfl⟩ :=
    (visitBlock_ok_iff (b := { b with phis := [], defs := b.moves p ++ b.defs }) hkept).mp h
  rw [Blk.elts, List.map_append, List.map_nil, List.nil_append, List.append_assoc] at hrun
  obtain ⟨rest, w₁, hrest, hfirst⟩ := visitElts_append hrun
  have hbare := (visitBlock_ok_iff (b := { b with phis := [] }) hkept).mpr ⟨w₁, hrest, rfl⟩
  obtain ⟨hasks, K₁, hw₁, hrestK⟩ := (hw.entered b).visitElts hpost hrest
  obtain ⟨-, K₂, hw₂, hcK⟩ := hw₁.visitElts hrestK hfirst
  refine ⟨rest, _, hbare, fun F hF => ?_⟩
  rw [hw₁.register.toFormula_eq hrestK] at hF
  obtain ⟨⟨G, hG⟩, hheeds⟩ := visitDefines_heeds hw₁.isLocal hw₁.named hmoves ⟨F, hF⟩ hfirst
  refine ⟨G, (hw₂.register.toFormula_eq hcK).trans hG, fun m => ?_⟩
  obtain ⟨m', reads, hoff, hdefines, htruth⟩ := hheeds m
  refine ⟨m', reads, ?_⟩
  rw [World.state, World.state, World.env_setEnv]
  have hentered : (entered w side b).asks side = w.asks side := by
    rw [World.asks, entered, World.env_setEnv]
    rfl
  rw [Constr.truth_of_plain hG, Constr.truth_of_plain hF, hasks, hentered] at htruth
  refine ⟨hoff, hdefines, fun hi => hdefines.together hi fun _ _ _ _ => rfl, htruth, fun hrules => ?_⟩
  have hunasked (σ : Store) (e : Exp) (d : Duty) : ¬ w.asks side σ e d false := by
    rw [World.asks, hrules]
    exact not_demands_nil σ e d false
  exact Bool.eq_iff_iff.mpr (htruth.trans (accepts_unasked hunasked reads))

/-! A value is handed on from one variable to the next. -/

def zeroGoal : Constr := .goal 0 "zero" zero none

def relay : Blk where
  tid := "%relay"
  phis := [
    ⟨⟨"R0", .word 32⟩, [("%entry", .lit 0#32), ("%before", .var ⟨"R1", .word 32⟩)], "%first", by decide⟩,
    ⟨⟨"R1", .word 32⟩, [("%before", .var ⟨"R2", .word 32⟩)], "%second", by decide⟩]
  defs := [⟨⟨"R2", .word 32⟩, .lit 7#32, "%third"⟩]
  jumps := [⟨.ret (.direct "%exit"), .always, "%return"⟩]

def relaying : World where
  orig := { Env.start .arm [] with
    frame := { Frame.start with
      retPost := some zeroGoal
      pred := some "%before" } }
  mod := Env.start .arm []
  nodes := 1
  translations := 0

theorem relay_visited : Succeeds (visitBlock (enterSub (settleNode 1)) .orig zeroGoal relay) relaying
    fun _ _ => True := .block (precond?_empty rfl ..) (.now rfl True.intro)

theorem relay_rest_visited :
    Succeeds (visitBlock (enterSub (settleNode 1)) .orig zeroGoal { relay with phis := [] }) relaying
      fun rest _ => rest =
        .subst 1 zeroGoal [(⟨.bv 32, .const "R2" (.bv 32)⟩, ⟨.bv 32, .op (.bvLit 7#32)⟩)] :=
  .block (precond?_empty rfl ..) (.now rfl rfl)

theorem visitBlock_phis_relay : ∃ pre w' rest w₁ F G,
    visitBlock (enterSub (settleNode 1)) .orig zeroGoal relay relaying = .ok pre w' ∧
      visitBlock (enterSub (settleNode 1)) .orig zeroGoal { relay with phis := [] } relaying =
        .ok rest w₁ ∧
      rest.toFormula = .ok F ∧ pre.toFormula = .ok G ∧ ∀ m, ∃ m',
        Together (w'.state .orig m) (relay.moves "%before") (w'.state .orig m) (w'.state .orig m') ∧
        G.holds m = F.holds m' := by
  obtain ⟨pre, w', h, -⟩ := relay_visited
  obtain ⟨_, w₁, hrest, rfl⟩ := relay_rest_visited
  have hfresh : zeroGoal.Fresh 1 := .goal (by decide) ..
  have hmeets : Meets .orig "%before" (Constr.Part zeroGoal) [] zeroGoal relaying := {
    retPost := rfl
    table := rfl
    retK := .refl
    targetK := nofun
    named := .of_empty rfl
    isLocal := by decide
    pred := rfl
    register := ⟨hfresh.numbered, hfresh.lt⟩ }
  have hledger := (hfresh.ledger (Constr.toFormula_goal ..)).add rfl
    (Constr.formal_subst (Constr.formal_goal ..) (.const "R2" (.bv 32)) (.op (.bvLit 7#32)))
    fun d hd => List.mem_singleton.mp hd ▸ .refl
  obtain ⟨F, hF, -⟩ := hledger.formula (.inr rfl)
  obtain ⟨_, _, hrest', hformula⟩ := visitBlock_phis hmeets .refl (by decide) (precond?_empty rfl ..) h
  cases hrest.symm.trans hrest'
  obtain ⟨G, hG, hm⟩ := hformula F hF
  refine ⟨pre, w', _, w₁, F, G, h, hrest, hF, hG, fun m => ?_⟩
  obtain ⟨m', reads, -, -, htogether, -, heq⟩ := hm m
  exact ⟨m', htogether (by decide), heq rfl⟩

/-! ### Where control comes from -/

/-- A phi that lists the block that its block is taken to be entered from takes the value along that
block, and nothing is noted. On a way that leads to the copy of the block control comes from there,
unless the block is the entry, or a header that control comes to sideways. -/
theorem visitPhi_of_way {g : Graph} {s : Sub} {t : String} {past : List String} {u : Unroll} {φ : Phi}
    (hg : Graph.ofSub s = .ok g) (hd : (s.blks.map Blk.tid).Nodup) (hway : s.Way (t :: past))
    (hkey : g.Keyed (t :: past) u) (hpred : (w.env side).frame.pred = g.predFor t u)
    (hp : g.predFor t u = some p) (hl : (φ.along? p).isSome) (post : Constr) :
    visitPhi side post φ w = assign side post φ.lhs (φ.taken p).rhs w ∧
      (past.head? = some p ↔ past ≠ [] ∧ ¬ g.Sideways t past) ∧
      (past = [] → ¬ ReflTransGen s.Goes t p) :=
  ⟨visitPhi_taken (hpred.trans hp) hl post, Graph.predFor_of_way hg hd hway hkey hp⟩

/-! A loop that is entered at two blocks. Its header is come to from outside, from the end of the loop
and, once the loop around it has been taken, from outside again. -/

def joined : Phi :=
  ⟨⟨"R0", .word 32⟩, [("%outer", .lit 1#32), ("%latch", .lit 2#32)], "%phi", by decide⟩

def tangled : Sub where
  name := "tangled"
  tid := "@tangled"
  addr := none
  args := []
  blks := [
    { tid := "%outer"
      phis := []
      defs := []
      jumps := [⟨.goto (.direct "%header"), .var ⟨"ZF", .word 1⟩, "%down"⟩,
        ⟨.goto (.direct "%latch"), .always, "%past"⟩] },
    { tid := "%header"
      phis := [joined]
      defs := []
      jumps := [⟨.goto (.direct "%outer"), .var ⟨"ZF", .word 1⟩, "%up"⟩,
        ⟨.goto (.direct "%latch"), .always, "%on"⟩] },
    { tid := "%latch"
      phis := []
      defs := []
      jumps := [⟨.goto (.direct "%header"), .always, "%back"⟩] }]

theorem tangled_way : tangled.Way ["%header", "%outer", "%header", "%latch", "%header", "%outer"] := by
  have hdown : tangled.Goes "%outer" "%header" :=
    .jump rfl (j := ⟨.goto (.direct "%header"), .var ⟨"ZF", .word 1⟩, "%down"⟩) (by decide) rfl rfl
  have hon : tangled.Goes "%header" "%latch" :=
    .jump rfl (j := ⟨.goto (.direct "%latch"), .always, "%on"⟩) (by decide) rfl rfl
  have hback : tangled.Goes "%latch" "%header" :=
    .jump rfl (j := ⟨.goto (.direct "%header"), .always, "%back"⟩) (by decide) rfl rfl
  have hup : tangled.Goes "%header" "%outer" :=
    .jump rfl (j := ⟨.goto (.direct "%outer"), .var ⟨"ZF", .word 1⟩, "%up"⟩) (by decide) rfl rfl
  exact .step (.step (.step (.step (.step (.entry rfl) hdown) hon) hback) hup) hdown

theorem visitPhi_of_way_tangled : ∃ g u, Graph.ofSub tangled = .ok g ∧
    g.predFor "%header" u = some "%latch" ∧
    visitPhi .orig zeroGoal joined (placedAt relaying .orig g [] "%header" u) =
      assign .orig zeroGoal joined.lhs (.lit 2#32) (placedAt relaying .orig g [] "%header" u) ∧
    g.Sideways "%header" ["%outer", "%header", "%latch", "%header", "%outer"] := by
  obtain ⟨g, hg⟩ : ∃ g, Graph.ofSub tangled = .ok g := ⟨_, rfl⟩
  obtain ⟨u, hkey, hp⟩ : ∃ u,
      g.Keyed ["%header", "%outer", "%header", "%latch", "%header", "%outer"] u ∧
      g.predFor "%header" u = some "%latch" := by
    cases hg
    refine ⟨_, .forward (.back (.back (.forward (.forward .entry ?_) ?_) ?_) ?_) ?_, ?_⟩
    all_goals decide
  have hpred : ((placedAt relaying .orig g [] "%header" u).env .orig).frame.pred =
    g.predFor "%header" u := rfl
  have hlisted : (joined.along? "%latch").isSome := by decide
  obtain ⟨hvisit, hhead, -⟩ :=
    visitPhi_of_way hg (by decide) tangled_way hkey hpred hp hlisted zeroGoal
  refine ⟨g, u, hg, hp, hvisit, ?_⟩
  by_contra hno
  exact absurd (hhead.mpr ⟨nofun, hno⟩) (by decide)

end Walk

end Precond

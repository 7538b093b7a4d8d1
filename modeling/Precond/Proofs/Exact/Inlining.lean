import Mathlib.Data.List.Nodup
import Precond.Proofs.Exact.Basic
import Precond.Proofs.Exact.Healthiness
import Precond.Proofs.Walk.RenamedSub
import Precond.Proofs.Walk.Success

/-! The expansion of callees is exact. Where calls do not recur and all callees are expanded, the
precondition of a subroutine is the postcondition at the end of the run in which calls run their
callees (`Walk.visitSub_inlined`). A subroutine that is expanded is one below the root whose own
callees are not expanded already (`Walk.Below`).

Variables of a callee under other names. Bindings are kept under names and types for all subroutines of
a program, so that a callee's variables are its own only where no other subroutine has them: then other names
for them make no difference to what the caller is asked for (`Walk.visitSub_renamed`). -/

namespace Precond.Walk

open IR Precond.Flow Relation

/-- All calls below a subroutine lead to subroutines with blocks and without loops, and none of them
comes back to its caller. -/
structure Expandable (subs : List Sub) (root : Sub) : Prop where
  tids : (subs.map Sub.tid).Nodup
  acyclic : ReflTransGen (Sub.Calls subs) root s → ¬ TransGen (Sub.Calls subs) s s
  closed : ReflTransGen (Sub.Calls subs) root s → s.closed
  known : root.KnownBelow subs
  loopFree : ReflTransGen (Sub.Calls subs) root s → LoopFree s
  resolved : ReflTransGen (Sub.Calls subs) root s → b ∈ s.blks → j ∈ b.jumps →
    j.way? = some (.call f back) → ∃ c, findCallee? subs (.direct f) = some c ∧ c.blks ≠ []

/-- A subroutine below the root, none of whose callees is being expanded. -/
def Below (subs : List Sub) (root : Sub) (inlining : List String) (s : Sub) : Prop :=
  ReflTransGen (Sub.Calls subs) root s ∧ ∀ c, TransGen (Sub.Calls subs) s c → c.tid ∉ inlining

theorem mem_of_calls {subs : List Sub} {s c : Sub} (h : TransGen (Sub.Calls subs) s c) :
    c ∈ subs := by
  obtain ⟨d, -, hd⟩ := TransGen.tail'_iff.mp h
  obtain ⟨-, -, -, -, -, hf⟩ := hd
  exact List.mem_of_find?_eq_some hf

/-- All calls of the subroutine are resolved, to subroutines with blocks and of lower rank. -/
def callsDown (subs : List Sub) (rank : String → Nat) (s : Sub) : Bool :=
  s.blks.all fun b => b.jumps.all fun j => (j.way?.bind Way.callee?).all fun f =>
    (findCallee? subs (.direct f)).any fun c => !c.blks.isEmpty && rank c.tid < rank s.tid

theorem callsDown_callee {subs : List Sub} {rank : String → Nat} {s : Sub} {b : Blk} {j : Jump}
    (h : callsDown subs rank s) (hb : b ∈ s.blks) (hj : j ∈ b.jumps)
    (hway : j.way? = some (.call f back)) :
    ∃ c, findCallee? subs (.direct f) = some c ∧ c.blks ≠ [] ∧ rank c.tid < rank s.tid := by
  have hf := List.all_eq_true.mp (List.all_eq_true.mp h b hb) j hj
  rw [hway] at hf
  obtain ⟨c, hc, hcs⟩ := (Option.any_eq_true ..).mp hf
  rw [Bool.and_eq_true, Bool.not_eq_true', List.isEmpty_eq_false_iff, decide_eq_true_iff] at hcs
  exact ⟨c, hc, hcs⟩

variable {subs : List Sub} {root : Sub} {side : Side} {w w' : World} {post pre : Constr}
  {F : Term .bool}

theorem rank_lt_of_calls {rank : String → Nat} {s c : Sub} (h : callsDown subs rank s)
    (hc : s.Calls subs c) : rank c.tid < rank s.tid := by
  obtain ⟨b, j, hb, hj, hway, hf⟩ := hc
  obtain ⟨d, hd, -, hlt⟩ := callsDown_callee h hb hj hway
  cases hf.symm.trans hd
  exact hlt

theorem rank_lt_of_transGen {rank : String → Nat} {s c : Sub}
    (h : ∀ s ∈ subs, callsDown subs rank s) (hs : s ∈ subs)
    (hc : TransGen (Sub.Calls subs) s c) : rank c.tid < rank s.tid := by
  induction hc with
  | single hc => exact rank_lt_of_calls (h s hs) hc
  | tail hpath hc ih => exact (rank_lt_of_calls (h _ (mem_of_calls hpath)) hc).trans ih

/-- Where calls go down there is no recursion. -/
theorem Expandable.of_rank (rank : String → Nat) (htids : (subs.map Sub.tid).Nodup)
    (hroot : root ∈ subs) (hs : ∀ s ∈ subs, s.closed ∧ s.known ∧ callsDown subs rank s)
    (hloop : ∀ s ∈ subs, LoopFree s) : Expandable subs root := by
  have hmem {s : Sub} (h : ReflTransGen (Sub.Calls subs) root s) : s ∈ subs := by
    rcases reflTransGen_iff_eq_or_transGen.mp h with rfl | h
    · exact hroot
    · exact mem_of_calls h
  have hdown : ∀ s ∈ subs, callsDown subs rank s := fun s h => (hs s h).2.2
  refine ⟨htids, fun h hcycle => ?_, fun h => (hs _ (hmem h)).1, fun c hc => (hs c (hmem hc)).2.1,
    fun h => hloop _ (hmem h), fun h hb hj hway => ?_⟩
  · exact Nat.lt_irrefl _ (rank_lt_of_transGen hdown (hmem h) hcycle)
  · obtain ⟨c, hc, hne, -⟩ := callsDown_callee (hdown _ (hmem h)) hb hj hway
    exact ⟨c, hc, hne⟩

/-- Callees are walked below their callers. -/
theorem Expandable.domain (h : Expandable subs root) :
    Domain subs (Below subs root) (TransGen (Sub.Calls subs) root) where
  phis hs hb := Sub.simple_phis (h.closed hs.1) hb
  jumps := by
    rintro inlining s b j ⟨hs, hnot⟩ hb hj
    obtain ⟨way, hway, -⟩ := Sub.simple_jumps (h.closed hs) hb hj
    refine ⟨way, hway, ?_⟩
    rintro f back rfl
    obtain ⟨c, hc, hne⟩ := h.resolved hs hb hj hway
    have hcall : s.Calls subs c := .mk b j hb hj hway hc
    refine ⟨c, hc, .tail' hs hcall, hne, hnot c (.single hcall), hs.tail hcall, fun d hd => ?_⟩
    rw [List.mem_cons, not_or]
    refine ⟨fun htid => ?_, hnot d (hd.head hcall)⟩
    -- a callee of the name of its caller would be the caller
    obtain rfl : d = c := List.inj_on_of_nodup_map h.tids (mem_of_calls hd)
      (List.mem_of_find?_eq_some hc) htid
    exact h.acyclic (hs.tail hcall) hd
  acyclic hs hg := h.loopFree hs.to_reflTransGen _ hg

/-- The walk of a subroutine all of whose callees are expanded. -/
theorem visitSub_inlined (hx : Expandable (w.env side).subs root)
    (hin : ∀ c, TransGen (Sub.Calls (w.env side).subs) root c →
      (w.env side).Inlines c ∧ c.tid ∉ (w.env side).inlining)
    (hstart : Start side w root post F) (h : visitSub side post root w = .ok pre w') :
    ∃ φ, pre.toFormula = .ok φ ∧ (∀ v ∈ root.vars, ((w'.env side).vars.lookup v).isSome) ∧
      ∀ m, ∃ σ, root.Ends (w.env side).subs (w'.state side m) σ ∧
        φ.holds m = F.holds (w'.after side m σ) := by
  have hready := hstart.ready hstart.ledger fun c hc => (hin c hc).1
  obtain ⟨K, g, hg, he⟩ := visitSub_ok hx.domain hready .refl ⟨.refl, fun c hc => (hin c hc).2⟩
    (fun hroot => absurd hroot hstart.root) (fun _ hg => LoopFree.uncut (hx.loopFree .refl) hg) h
  obtain ⟨φ, hφ, hφm⟩ := (he.walked.ledger hstart.ledger).formula he.pre
  refine ⟨φ, hφ, fun v hv => he.vars hv, fun m => ?_⟩
  obtain ⟨σ, hσ, hpre⟩ := he.ends hg (hx.loopFree .refl) hx.known (fun c hc => hx.closed hc)
    (.refl _) (he.walked.later.named hstart.named).separate m
  exact ⟨σ, hσ, by rw [hφm, hpre, hstart.fresh.truth hstart.formula]; rfl⟩

/-! ### Two calls of one subroutine -/

/-- A register is doubled. -/
def double : Sub where
  name := "double"
  tid := "@double"
  addr := none
  args := []
  blks := [{
    tid := "%only"
    phis := []
    defs := [⟨⟨"R0", .word 32⟩, .bin .add (.var ⟨"R0", .word 32⟩) (.var ⟨"R0", .word 32⟩), "%set"⟩]
    jumps := [⟨.ret (.direct "%exit"), .always, "%ret"⟩] }]

/-- Two calls of one subroutine, which comes back from the first one only. -/
def quadruple : Sub where
  name := "quadruple"
  tid := "@quadruple"
  addr := none
  args := []
  blks := [
    ⟨"%first", [], [], [⟨.call (.direct "@double") (some (.direct "%second")), .always, "%call"⟩]⟩,
    ⟨"%second", [], [], [⟨.call (.direct "@double") none, .always, "%tail"⟩]⟩]

/-- All subroutines are expanded. -/
def expanding : World where
  orig := { Env.start .arm [quadruple, double] with rules := [.inline ["@quadruple", "@double"]] }
  mod := Env.start .arm []
  nodes := 1
  translations := 0

/-- The register is four. -/
def four : Term .bool := .eq (.const "R0" (.bv 32)) (.numeral 32 4)

theorem expandable_quadruple : Expandable [quadruple, double] quadruple := by
  refine .of_rank (fun t => if t = "@quadruple" then 1 else 0) (by decide) (by decide) (by decide)
    fun s hs => ?_
  refine .of_rank (fun t => if t = "%first" then 1 else 0) ?_
  revert s
  decide

theorem quadruple_visited :
    Succeeds (visitSub .orig (.goal 0 "four" four none) quadruple) expanding fun _ _ => True := by
  have hquadruple : sortByName quadruple.vars = [] := by
    rw [show quadruple.vars = [] by decide]
    simp [sortByName]
  have hdouble : sortByName double.vars = [⟨"R0", .word 32⟩] := by
    rw [show double.vars = [⟨"R0", .word 32⟩] by decide]
    simp [sortByName]
  refine .step rfl (.enter (Graph.ofSub_chain rfl (by decide) rfl rfl rfl) hquadruple ?_)
  refine .step rfl (.step rfl (.step rfl (.step rfl (.restoring ?_))))
  refine .settle rfl (precond?_empty rfl ..) (.bind (.bind ?_))
  refine .settle rfl (precond?_empty rfl ..) (.step rfl (.step rfl ?_))
  refine .step rfl (.step rfl (.step rfl ?_))
  refine .block (precond?_empty rfl ..) (.step rfl (.bind (.step rfl (.step rfl ?_))))
  dsimp only [World.setEnv, World.env]
  refine .bind (.step rfl (.step rfl (.step rfl (.step rfl ?_))))
  refine .inline rfl rfl ?_
  refine .step rfl (.restoring (.step rfl (.step rfl (.restoring ?_))))
  refine .enter (Graph.ofSub_lone rfl rfl) hdouble ?_
  refine .step rfl (.step rfl (.step rfl (.step rfl (.restoring ?_))))
  refine .settle rfl (precond?_empty rfl ..) (.step rfl (.step rfl ?_))
  refine .step rfl (.step rfl (.step rfl (.block (precond?_empty rfl ..) (.now rfl ?_))))
  dsimp only [World.setEnv, World.env, Env.addPrecond, Frame.nested]
  refine .now rfl ?_
  refine .now rfl ?_
  dsimp only [World.setEnv, World.env, Env.addPrecond]
  refine .now rfl (.bind (.kept rfl ((precond?_insert rfl ..).trans (if_pos rfl)) (.now rfl ?_)))
  refine .step rfl (.step rfl (.step rfl ?_))
  refine .block ?_ (.step rfl (.bind (.step rfl (.step rfl ?_))))
  · rw [precond?_insert rfl, if_neg (by decide)]
    exact Std.HashMap.getElem?_empty ..
  dsimp only [World.setEnv, World.env]
  refine .bind (.step rfl (.step rfl (.step rfl (.step rfl ?_))))
  refine .inline rfl rfl ?_
  refine .step rfl (.restoring (.step rfl (.step rfl (.restoring ?_))))
  refine .enter (Graph.ofSub_lone rfl rfl) hdouble ?_
  refine .step rfl (.step rfl (.step rfl (.step rfl (.restoring ?_))))
  refine .settle rfl (precond?_empty rfl ..) (.step rfl (.step rfl ?_))
  refine .step rfl (.step rfl (.step rfl (.block (precond?_empty rfl ..) (.now rfl ?_))))
  exact .now rfl (.now rfl True.intro)

theorem visitSub_inlined_quadruple :
    ∃ pre w' φ, visitSub .orig (.goal 0 "four" four none) quadruple expanding = .ok pre w' ∧
      pre.toFormula = .ok φ ∧ ∀ m, ∃ σ, quadruple.Ends [quadruple, double] (w'.state .orig m) σ ∧
        φ.holds m = four.holds (w'.after .orig m σ) := by
  obtain ⟨pre, w', h, -⟩ := quadruple_visited
  have hin : ∀ c, TransGen (Sub.Calls [quadruple, double]) quadruple c →
      (expanding.env .orig).Inlines c ∧ c.tid ∉ (expanding.env .orig).inlining := by
    intro c hc
    have hc := mem_of_calls hc
    rcases List.mem_cons.mp hc with rfl | hc
    · exact ⟨⟨_, rfl⟩, by decide⟩
    · cases List.mem_singleton.mp hc
      exact ⟨⟨_, rfl⟩, by decide⟩
  have hstart : Start .orig expanding quadruple (.goal 0 "four" four none) four :=
    .goal (.fresh rfl rfl rfl) rfl (by decide)
  have hx : Expandable (expanding.env .orig).subs quadruple := expandable_quadruple
  obtain ⟨φ, hφ, -, hm⟩ := visitSub_inlined hx hin hstart h
  exact ⟨pre, w', φ, h, hφ, hm⟩

end Precond.Walk

namespace Precond

open IR Precond.Flow Relation

/-- The world in which the program has other names for variables. -/
def World.renamed (w : World) (side : Side) (ρ : Renaming) : World :=
  w.setEnv side { w.env side with subs := (w.env side).subs.map ρ.sub }

/-- A constraint whose formula reads no constant of a variable with another name is like itself. -/
theorem IR.Renaming.Alike.of_constants {ρ : Renaming} {c : Constr}
    (h : ∀ P, c.plain = .ok P → ∀ v s, ρ.Moves v → v.type.sort = .ok s → (v.name, s) ∉ P.constants) :
    ρ.Alike (fun _ => False) c c := by
  unfold Alike
  cases hP : c.plain with
  | error => exact .error
  | ok P =>
    refine .ok ⟨rfl, fun m m' hm => congrArg (Sigma.mk TSort.bool) (Spine.eval_congr hm.func fun k hk => ?_)⟩
    obtain ⟨n, s⟩ := k
    have hfix (type : Ty) (htype : s.type? = some type) : ρ ⟨n, type⟩ = ⟨n, type⟩ :=
      not_not.mp fun hmoves => h P hP ⟨n, type⟩ s hmoves (TSort.type?_eq.mp htype) hk
    have hname : ρ.name n s = n := by
      unfold name
      cases hs : s.type? with
      | none => rfl
      | some type => exact congrArg Var.name (hfix type hs)
    have hconst := hm.const (n := n) (s := s) fun type htype hmoves => absurd (hfix type htype) hmoves
    rwa [hname] at hconst

namespace Walk

variable {side : Side} {w w' : World} {f g : Sub} {post pre : Constr} {K : Constr → Prop} {F : Term .bool}
  {ρ : Renaming}

/-- The formula of the precondition is that of its nodes. -/
theorem asks_iff (hK : Constr.Register K w.nodes) (hp : K post)
    (hroot : (w.env side).frame.root ≠ some (f.tid, post.id)) :
    Asks side f w post F ↔ ∃ pre w', visitSub side post f w = .ok pre w' ∧ pre.plain = .ok F := by
  refine exists_congr fun pre => exists_congr fun w' => and_congr_right fun hrun => ?_
  obtain ⟨K₁, -, hK₁, hpre⟩ := visitSub_register hK hp hroot hrun
  rw [hK₁.toNumbered.toFormula_eq hpre]

/-- Walks that end alike, as far as no variable with another name counts, come to formulas that are true in
the same models, or both to none. -/
theorem formulas_of_conform {A : World → World → Prop} {r r' : EStateM.Result Fault World Constr}
    (h : Conform (ρ.Alike fun _ => False) A r r') :
    (∀ F, (∃ pre w', r = .ok pre w' ∧ pre.plain = .ok F) →
      ∃ F', (∃ pre w', r' = .ok pre w' ∧ pre.plain = .ok F') ∧ ∀ m, F'.holds m = F.holds m) ∧
    ∀ F', (∃ pre w', r' = .ok pre w' ∧ pre.plain = .ok F') →
      ∃ F, (∃ pre w', r = .ok pre w' ∧ pre.plain = .ok F) ∧ ∀ m, F'.holds m = F.holds m := by
  rcases h with ⟨halike, -⟩ | _
  swap
  · constructor <;> rintro _ ⟨_, _, ⟨⟩, _⟩
  rename_i pre pre' w w'
  have hsame {F F' : Term .bool} (hF : pre.plain = .ok F) (hF' : pre'.plain = .ok F') (m : Model) :
      F'.holds m = F.holds m := by
    unfold Renaming.Alike at halike
    rw [hF, hF'] at halike
    cases halike with
    | ok h => exact h.holds (.self m)
  have hplain : (∃ F, pre.plain = .ok F) ↔ ∃ F', pre'.plain = .ok F' := by
    unfold Renaming.Alike at halike
    revert halike
    generalize pre.plain = p
    generalize pre'.plain = p'
    rintro (_ | _)
    · exact ⟨fun _ => ⟨_, rfl⟩, fun _ => ⟨_, rfl⟩⟩
    · constructor <;> rintro ⟨_, ⟨⟩⟩
  constructor
  · rintro F ⟨_, _, ⟨⟩, hF⟩
    obtain ⟨F', hF'⟩ := hplain.mp ⟨F, hF⟩
    exact ⟨F', ⟨_, _, rfl, hF'⟩, hsame hF hF'⟩
  · rintro F' ⟨_, _, ⟨⟩, hF'⟩
    obtain ⟨F, hF⟩ := hplain.mpr ⟨F', hF'⟩
    exact ⟨F, ⟨_, _, rfl, hF⟩, hsame hF hF'⟩

/-- Only one subroutine has the variables that get other names, and assigns them before it reads them. -/
theorem fair_of_owner {G : Guise} (hapart : G.Apart) (hverbatim : G.base.freshen = false)
    (hroot : G.ρ.sub G.root = G.root) (hothers : ∀ s ∈ G.base.subs, s ≠ g → G.ρ.sub s = s)
    (hown : ∀ v ∈ g.vars, G.ρ.Moves v → g.Settles v) : G.Fair where
  toApart := hapart
  verbatim := hverbatim
  settles := by
    intro s v hs hm
    have hfixed (h : G.ρ.sub s = s) : s.Settles v :=
      Sub.settles_of_not_mem fun hv => Renaming.not_moves_of_sub h hv hm
    rcases hs with rfl | hs
    · exact hfixed hroot
    · by_cases hsg : s = g
      · subst hsg
        by_cases hv : v ∈ s.vars
        · exact hown v hv hm
        · exact Sub.settles_of_not_mem hv
      · exact hfixed (hothers s hs hsg)

/-- The environments from which both walks start: the variables that get other names are not bound yet. -/
theorem renders_renamed (root : Sub) (hw : (w.env side).Verbatim []) (hhandlers : (w.env side).handlers = [])
    (hunbound : ∀ v, ρ.Moves v → (w.env side).vars.lookup v = none) :
    let G : Guise := ⟨side, (w.env side).settings, root, ρ⟩
    G.Renders G.Own (fun _ _ => True) (w.env side) ((w.renamed side ρ).env side) := by
  intro G
  rw [World.renamed, World.env_setEnv]
  refine ⟨rfl, rfl, rfl, rfl, fun v => ?_, rfl, fun h => hw.called h, rfl, fun h => hw.funcs h, fun t => ?_,
    True.intro⟩
  · show Option.Rel _ ((w.env side).vars.lookup v) ((w.env side).vars.lookup (ρ v))
    by_cases hm : ρ.Moves v
    · rw [hunbound v hm, hunbound (ρ v) hm.moved]
      exact .none
    · have hfix : ρ v = v := not_not.mp hm
      rw [hfix]
      cases hl : (w.env side).vars.lookup v with
      | none => exact .none
      | some t =>
        have ht : v.Own t := hw.vars List.not_mem_nil hl
        exact .some ⟨ht, hfix.symm ▸ ht⟩
  · show Option.Rel _ ((w.env side).handlers.lookup t) ((w.env side).handlers.lookup t)
    rw [hhandlers]
    exact .none

/-- Variables of a subroutine that no other one has, and that it assigns before it reads them, may have other
names: the precondition of the caller is true in the same models, or there is none under either names. The
names are those of nothing else that the walk makes, and the postcondition does not mention the variables. -/
theorem visitSub_renamed (hK : Constr.Register K w.nodes) (hp : K post) (hkept : Unkept side K f w)
    (hw : (w.env side).Verbatim []) (hhandlers : (w.env side).handlers = [])
    (hunbound : ∀ v, ρ.Moves v → (w.env side).vars.lookup v = none)
    (hapart : Guise.Apart ⟨side, (w.env side).settings, f, ρ⟩) (hroot : ρ.sub f = f)
    (hothers : ∀ s ∈ (w.env side).subs, s ≠ g → ρ.sub s = s) (hown : ∀ v ∈ g.vars, ρ.Moves v → g.Settles v)
    (hpost : ∀ P, post.toFormula = .ok P → ∀ v s, ρ.Moves v → v.type.sort = .ok s →
      (v.name, s) ∉ P.constants) :
    (∀ F, Asks side f w post F →
      ∃ F', Asks side f (w.renamed side ρ) post F' ∧ ∀ m, F'.holds m = F.holds m) ∧
    ∀ F', Asks side f (w.renamed side ρ) post F' →
      ∃ F, Asks side f w post F ∧ ∀ m, F'.holds m = F.holds m := by
  let G : Guise := ⟨side, (w.env side).settings, f, ρ⟩
  have hG : G.Fair := fair_of_owner hapart hw.freshen hroot hothers hown
  have hrenders : G.Renders G.Own (fun _ _ => True) (w.env side) ((w.renamed side ρ).env side) :=
    renders_renamed f hw hhandlers hunbound
  have hplain : post.toFormula = post.plain := hK.toNumbered.toFormula_eq hp
  have hnodes : Constr.Register K (w.renamed side ρ).nodes := by
    rw [World.renamed, World.nodes_setEnv]
    exact hK
  have hr := hkept.root hp
  have hr' : ((w.renamed side ρ).env side).frame.root ≠ some (f.tid, post.id) := by
    rw [World.renamed, World.env_setEnv]
    exact hr
  have hboth := Guise.visitSub hG (.inl rfl) (.of_constants fun P hP => hpost P (hplain.trans hP)) hr hr' hrenders
  rw [show G.ρ.sub f = f from hroot] at hboth
  simp only [asks_iff hK hp hr, asks_iff hnodes hp hr']
  exact formulas_of_conform hboth

/-! ### A constant that is fetched -/

/-- The variable of the callee, and another name for it. -/
def scratch (name : String) : Var := ⟨name, .word 32⟩

/-- Four is loaded by way of a variable of its own. -/
def fetch : Sub where
  name := "fetch"
  tid := "@fetch"
  addr := none
  args := []
  blks := [{
    tid := "%only"
    phis := []
    defs := [⟨scratch "A", .lit 4#32, "%load"⟩, ⟨⟨"R0", .word 32⟩, .var (scratch "A"), "%set"⟩]
    jumps := [⟨.ret (.direct "%exit"), .always, "%ret"⟩] }]

/-- A call that does not come back. -/
def forward : Sub where
  name := "forward"
  tid := "@forward"
  addr := none
  args := []
  blks := [⟨"%first", [], [], [⟨.call (.direct "@fetch") none, .always, "%tail"⟩]⟩]

/-- Both subroutines are expanded. -/
def fetching : World where
  orig := { Env.start .arm [forward, fetch] with rules := [.inline ["@forward", "@fetch"]] }
  mod := Env.start .arm []
  nodes := 1
  translations := 0

/-- The variable of the callee gets another name. -/
def rename : Renaming := .swap (scratch "A") (scratch "B") rfl

theorem fetch_visited :
    Succeeds (visitSub .orig (.goal 0 "four" four none) forward) fetching fun _ _ => True := by
  have hforward : sortByName forward.vars = [] := by
    rw [show forward.vars = [] by decide]
    simp [sortByName]
  have hfetch : sortByName fetch.vars = [scratch "A", ⟨"R0", .word 32⟩] := by
    rw [show fetch.vars = [scratch "A", ⟨"R0", .word 32⟩] by decide]
    exact List.mergeSort_of_pairwise (by decide)
  refine .step rfl (.enter (Graph.ofSub_lone rfl rfl) hforward ?_)
  refine .step rfl (.step rfl (.step rfl (.step rfl (.restoring ?_))))
  refine .settle rfl (precond?_empty rfl ..) (.step rfl (.step rfl ?_))
  refine .step rfl (.step rfl (.step rfl ?_))
  refine .block (precond?_empty rfl ..) (.step rfl (.bind (.step rfl (.step rfl ?_))))
  dsimp only [World.setEnv, World.env]
  refine .bind (.step rfl (.step rfl (.step rfl (.step rfl ?_))))
  refine .inline rfl rfl ?_
  refine .step rfl (.restoring (.step rfl (.step rfl (.restoring ?_))))
  refine .enter (Graph.ofSub_lone rfl rfl) hfetch ?_
  refine .step rfl (.step rfl (.step rfl (.step rfl (.restoring ?_))))
  refine .settle rfl (precond?_empty rfl ..) (.step rfl (.step rfl ?_))
  refine .step rfl (.step rfl (.step rfl (.block (precond?_empty rfl ..) (.now rfl ?_))))
  exact .now rfl (.now rfl True.intro)

theorem expandable_forward : Expandable [forward, fetch] forward := by
  refine .of_rank (fun t => if t = "@forward" then 1 else 0) (by decide) (by decide) (by decide)
    fun s hs => ?_
  refine .of_rank (fun _ => 0) ?_
  revert s
  decide

theorem rename_moves {v : Var} (h : rename.Moves v) : v = scratch "A" ∨ v = scratch "B" :=
  Renaming.eq_or_eq_of_swap h

theorem rename_apart : Guise.Apart ⟨.orig, (fetching.env .orig).settings, forward, rename⟩ := by
  refine .of_plain (fun v hv => ?_) (fun v hv hm => ?_) (fun n a ha => ?_) nofun
  · rcases rename_moves hv with rfl | rfl <;> decide
  · have hall : ∀ v ∈ conventional .arm, v ≠ scratch "A" ∧ v ≠ scratch "B" := by decide
    exact (rename_moves hm).elim (hall v hv).1 (hall v hv).2
  · have hargs : ∀ s ∈ [forward, fetch], s.args = [] := by decide
    rcases Env.callee_mem (fetching.env .orig).settings n with hs | hs
    · rw [hargs _ hs] at ha
      cases ha
    · rw [hs] at ha
      cases ha

theorem fetch_settles : fetch.Settles (scratch "A") := by
  rintro t ht ⟨q, hq, hneeds⟩
  cases ht
  cases hq
  cases hneeds with
  | define h => cases h
  | defined h => exact h rfl

theorem visitSub_renamed_fetch : ∃ F F', Asks .orig forward fetching (.goal 0 "four" four none) F ∧
    Asks .orig forward (fetching.renamed .orig rename) (.goal 0 "four" four none) F' ∧
    ∀ m, F'.holds m = F.holds m := by
  obtain ⟨pre, w', h, -⟩ := fetch_visited
  have hin : ∀ c, TransGen (Sub.Calls [forward, fetch]) forward c →
      (fetching.env .orig).Inlines c ∧ c.tid ∉ (fetching.env .orig).inlining := by
    intro c hc
    rcases List.mem_cons.mp (mem_of_calls hc) with rfl | hc
    · exact ⟨⟨_, rfl⟩, by decide⟩
    · cases List.mem_singleton.mp hc
      exact ⟨⟨_, rfl⟩, by decide⟩
  have hstart : Start .orig fetching forward (.goal 0 "four" four none) four :=
    .goal (.fresh rfl rfl rfl) rfl (by decide)
  have hx : Expandable (fetching.env .orig).subs forward := expandable_forward
  have hready := hstart.ready hstart.ledger fun c hc => (hin c hc).1
  obtain ⟨K, g, hg, he⟩ := visitSub_ok hx.domain hready .refl ⟨.refl, fun c hc => (hin c hc).2⟩
    (fun hroot => absurd hroot hstart.root) (fun _ hg => LoopFree.uncut (hx.loopFree .refl) hg) h
  obtain ⟨F, hF, -⟩ := (he.walked.ledger hstart.ledger).formula he.pre
  have hasks : Asks .orig forward fetching (.goal 0 "four" four none) F := ⟨pre, w', h, hF⟩
  have hothers : ∀ s ∈ [forward, fetch], s ≠ fetch → rename.sub s = s := by
    intro s hs hne
    rcases List.mem_cons.mp hs with rfl | hs
    · rfl
    · exact absurd (List.mem_singleton.mp hs) hne
  have hown : ∀ v ∈ fetch.vars, rename.Moves v → fetch.Settles v := by
    intro v hv hm
    rcases rename_moves hm with rfl | rfl
    · exact fetch_settles
    · exact absurd hv (by decide)
  have hpost : ∀ P, (Constr.goal 0 "four" four none).toFormula = .ok P → ∀ v s, rename.Moves v →
      v.type.sort = .ok s → (v.name, s) ∉ P.constants := by
    intro P hP v s hm _
    cases (Constr.toFormula_goal 0 "four" four none).symm.trans hP
    intro hmem
    have hname : v.name = "R0" := congrArg Prod.fst (List.mem_singleton.mp hmem)
    rcases rename_moves hm with rfl | rfl <;> exact absurd hname (by decide)
  obtain ⟨F', hF', hsame⟩ := (visitSub_renamed hstart.ledger.register .refl (.fresh rfl)
    (.of_blank rfl rfl rfl rfl) rfl (fun _ _ => rfl) rename_apart rfl hothers hown hpost).1 F hasks
  exact ⟨F, F', hasks, hF', hsame⟩

end Walk

end Precond

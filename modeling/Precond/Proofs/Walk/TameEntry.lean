import Precond.Analysis.Setup
import Precond.Proofs.Walk.TameSettle

/-! What is known and asked around the walk of a subroutine, under safe policies. The constants of one
variable are of one sort in both programs, so that they can be compared, and a register that is taken
for a pointer has a width unless it is the memory. -/

namespace Precond.Walk

open IR

variable {P : Side → Env} {side : Side} [hp : Policed P] {s : Sub} {v : Var} {vars : List Var}

/-- A constraint that has a formula is given, or the fault is contained. -/
abbrev Yields (P : Side → Env) (x : Walk Constr) : Prop := Tame P Fault.Contained Constr.Formal x

namespace Yields

omit hp in
theorem equate {x y : SomeTerm} (name : String) (h : x.1 = y.1) : Yields P (Walk.equate name x y) :=
  (Tame.lift (Term.eq_ends h.symm)).bind fun _ _ => .mkGoal ..

theorem varsOf_sorted {e : Env} (he : e.Fits (P side)) (hs : s ∈ (P side).subs) :
    ∀ v ∈ varsOf e s, v.sorted := by
  have hreg := Tame.regular (P := P) side
  intro v hv
  rcases List.mem_append.mp (List.mem_eraseDups.mp hv) with hv | hv
  · exact Tame.sub_vars hs v hv
  · rw [he.arch] at hv
    exact hreg.sorted v (by simp [conventional, hv])

omit hp in
theorem snapshot (hv : ∀ v ∈ vars, v.sorted) :
    Tame P Fault.Contained (fun cs => ∀ c ∈ cs, c.Formal) (Walk.snapshot side vars) := by
  refine .mapM_all fun v hm => ?_
  have hv' := hv v (List.mem_mergeSort.mp hm)
  refine (Tame.mkVar hv').bind fun t ht => (Tame.on (.mkInitVar hv')).bind fun init hinit => ?_
  exact equate _ (Except.ok.inj (hinit.symm.trans ht))

theorem spRange : Tame P Fault.Contained (fun _ => True) (Walk.on side Env.spRange) :=
  Tame.on (.spRange (Tame.regular side).sp_sort)

theorem stackPointerGoal : Yields P (Walk.stackPointerGoal side) := by
  refine .env fun e he => ?_
  rw [he.arch]
  exact (Tame.conventional (by simp [conventional])).bind fun _ _ => spRange.bind fun _ _ => .mkGoal ..

/-- A register that may hold a pointer. -/
def Pointer (v : Var) : Prop := ∃ w, v.type.sort = .ok (.bv w)

omit hp in
theorem pointerGoal (hv : Pointer v) : Yields P (Walk.pointerGoal side v) := by
  obtain ⟨w, hw⟩ := hv
  refine (Tame.mkVar (Var.sorted_iff.mpr ⟨_, hw⟩)).bind fun t ht => ?_
  refine (Tame.ofExcept (Term.sized_ends (Except.ok.inj (ht.symm.trans hw)))).bind fun _ _ => ?_
  exact .env fun _ _ => .mkGoal ..

theorem register {name : String} (h : name ≠ (P side).arch.mem.name) :
    Tame P Fault.Contained Pointer (Walk.register side name) := by
  have hreg := Tame.regular (P := P) side
  refine .env fun e he => ?_
  rw [he.arch]
  cases hv : (P side).arch.reg? name with
  | none =>
    simp only [hv]
    exact .throw True.intro
  | some v =>
    simp only [hv]
    have hname : v.name = name := by simpa using List.find?_some hv
    have hmem := List.mem_of_find?_eq_some hv
    obtain ⟨s, hs⟩ := Var.sorted_iff.mp (hreg.sorted v (by simp [conventional, hmem]))
    have hword := hreg.words v hmem (hname ▸ h)
    rw [Ty.sort?_eq_some.mpr hs] at hword
    cases s with
    | bv w => exact .pure ⟨w, hs⟩
    | bool | mem => cases hword

theorem pointers {names : List String} (h : ∀ n ∈ names, n ≠ (P .orig).arch.mem.name) :
    Yields P (Walk.pointers names) := by
  refine (Tame.mapM_all fun n hn => register (h n hn)).bind fun regs hregs => ?_
  exact (Tame.mapM_all fun v hv => pointerGoal (hregs v hv)).bind fun goals hgoals => .mkClause nofun hgoals

theorem pointersBoth {names : List String} (h : ∀ side, ∀ n ∈ names, n ≠ (P side).arch.mem.name) :
    Yields P (Walk.pointersBoth names) := by
  refine (Tame.mapM_all fun n hn => register (h .orig n hn)).bind fun orig horig => ?_
  refine (Tame.mapM_all fun n hn => register (h .mod n hn)).bind fun mod hmod => ?_
  refine (Tame.mapM_all fun v hv => pointerGoal (horig v hv)).bind fun goals hgoals => ?_
  refine (Tame.mapM_all fun v hv => pointerGoal (hmod v hv)).bind fun goals' hgoals' => ?_
  exact .mkClause nofun (List.forall_mem_append.mpr ⟨hgoals, hgoals'⟩)

omit hp in
theorem formulaFor (text : String) : Yields P (Walk.formulaFor side text) :=
  .env fun _ _ => .formula ..

omit hp in
theorem formulaForBoth (text : String) : Yields P (Walk.formulaForBoth text) :=
  .env fun _ _ => .env fun _ _ => .formula ..

theorem single {o : Options} (hs : s ∈ (P .orig).subs)
    (hn : ∀ n ∈ o.pointerRegs, n ≠ (P .orig).arch.mem.name) : Yields P (Analysis.single o s) := by
  have hwalk {hyps : List Constr} {post : Constr} (hh : ∀ c ∈ hyps, c.Formal) (hpost : post.Formal) :
      Yields P (do
        let pre ← Walk.visitSub .orig post s
        Walk.mkClause hyps [pre]) :=
    (visitSub_tame hs hpost).bind fun pre hpre => .mkClause hh (List.forall_mem_singleton.mpr hpre)
  have hpost {hyps : List Constr} (hh : ∀ c ∈ hyps, c.Formal) : Yields P (if o.postcond.isEmpty then do
        let post ← Walk.trivial
        let pre ← Walk.visitSub .orig post s
        Walk.mkClause hyps [pre]
      else do
        let post ← Walk.formulaFor .orig o.postcond
        let pre ← Walk.visitSub .orig post s
        Walk.mkClause hyps [pre]) :=
    .ite (fun _ => Tame.trivial.bind fun post hpost => hwalk hh hpost) fun _ =>
      (formulaFor _).bind fun post hpost => hwalk hh hpost
  refine .env fun e he => (snapshot (varsOf_sorted he hs)).bind fun inputs hinputs => ?_
  refine stackPointerGoal.bind fun sp hsp => ?_
  have hyps {ptrs given : List Constr} (hptrs : ∀ c ∈ ptrs, c.Formal) (hgiven : ∀ c ∈ given, c.Formal) :
      ∀ c ∈ inputs ++ [sp] ++ ptrs ++ given, c.Formal := by
    simp only [List.forall_mem_append]
    exact ⟨⟨⟨hinputs, List.forall_mem_singleton.mpr hsp⟩, hptrs⟩, hgiven⟩
  have hnone : Tame P Fault.Contained (fun cs : List Constr => ∀ c ∈ cs, c.Formal) (Pure.pure []) := .pure nofun
  have hone {c : Constr} (h : c.Formal) :
      Tame P Fault.Contained (fun cs => ∀ c ∈ cs, c.Formal) (Pure.pure [c]) :=
    .pure (List.forall_mem_singleton.mpr h)
  refine .ite (fun _ => hnone.bind fun ptrs hptrs => ?_) fun _ => (pointers hn).bind fun ptr hptr =>
    (hone hptr).bind fun ptrs hptrs => ?_
  all_goals
    exact .ite (fun _ => hnone.bind fun given hgiven => hpost (hyps hptrs hgiven)) fun _ =>
      (formulaFor _).bind fun g hg => (hone hg).bind fun given hgiven =>
        hpost (hyps hptrs hgiven)

/-! ### Comparisons -/

variable {orig mod : Sub}

omit hp in
theorem equalVars (hv : ∀ v ∈ vars, v.sorted) (label : String) :
    Yields P (PairRel.equalVars vars label) := by
  refine (Tame.mapM_all fun v hm => ?_).bind fun goals hgoals => .mkClause nofun hgoals
  have hv' := hv v (List.mem_mergeSort.mp hm)
  refine (Tame.mkVar hv').bind fun x hx => (Tame.mkVar hv').bind fun y hy => ?_
  exact equate _ (Except.ok.inj (hx.symm.trans hy))

/-- Shared variables are those of the first program. -/
theorem sharedVars (ho : orig ∈ (P .orig).subs) :
    Tame P Fault.Contained (fun vars => ∀ v ∈ vars, v.sorted) (PairRel.sharedVars orig mod) :=
  .env fun _ _ => .env fun _ he => .pure fun v hv => varsOf_sorted he ho v (List.mem_of_mem_filter hv)

theorem equalInputs (ho : orig ∈ (P .orig).subs) : Yields P (PairRel.equalInputs orig mod) :=
  (sharedVars ho).bind fun _ hv => equalVars hv _

omit hp in
theorem calleesOfBoth :
    Tame P Fault.Contained (fun _ => True) (PairRel.calleesOfBoth orig mod) :=
  .env fun _ _ => .env fun _ _ => .pure True.intro

omit hp in
theorem sameCalls : Yields P (PairRel.sameCalls orig mod) := by
  refine calleesOfBoth.bind fun names _ => ?_
  refine (Tame.mapM_all fun name _ => ?_).bind fun goals hgoals => .mkClause nofun hgoals
  exact (Tame.on (.getCalled name)).bind fun _ _ => (Tame.on (.getCalled name)).bind fun _ _ => .mkGoal ..

omit hp in
theorem nothingCalled (name : String) : Yields P (PairRel.nothingCalled side name) :=
  (Tame.on (.getCalled name)).bind fun _ _ => .mkGoal ..

/-- What a comparator asks at the entries and at the exits. -/
structure Compares (P : Side → Env) (orig mod : Sub) (cmp : Comparator) : Prop where
  post : Yields P (cmp.post orig mod)
  hyp : Yields P (cmp.hyp orig mod)

namespace Compares

theorem stackPointers : Compares P orig mod .stackPointers where
  post := Tame.trivial
  hyp := spRange.bind fun _ _ => (Tame.mkGoal ..).bind fun _ horig => spRange.bind fun _ _ =>
    (Tame.mkGoal ..).bind fun _ hmod => .mkClause nofun
      (List.forall_mem_cons.mpr ⟨horig, List.forall_mem_singleton.mpr hmod⟩)

theorem memories : Compares P orig mod .memories where
  post := Tame.trivial
  hyp := .env fun e he => equalVars (List.forall_mem_singleton.mpr (by
    rw [he.arch]
    exact (Tame.regular (P := P) .orig).sorted _ (by simp [conventional]))) _

omit hp in
theorem registers {pre post : List Var} (hpre : ∀ v ∈ pre, v.sorted) (hpost : ∀ v ∈ post, v.sorted) :
    Compares P orig mod (.registers pre post) where
  post := equalVars hpost _
  hyp := equalVars hpre _

omit hp in
theorem formulas (post hyp : String) : Compares P orig mod (.formulas post hyp) where
  post := formulaForBoth _
  hyp := formulaForBoth _

theorem calls (ho : orig ∈ (P .orig).subs) : Compares P orig mod .calls where
  post := sameCalls
  hyp := by
    refine calleesOfBoth.bind fun names _ => ?_
    refine (Tame.mapM_all (Q := fun cs => ∀ c ∈ cs, c.Formal) fun name _ => ?_).bind fun goals hgoals => ?_
    · refine (nothingCalled name).bind fun _ horig => (nothingCalled name).bind fun _ hmod => ?_
      exact .pure (List.forall_mem_cons.mpr ⟨horig, List.forall_mem_singleton.mpr hmod⟩)
    · refine (equalInputs ho).bind fun inputs hinputs => .mkClause nofun ?_
      refine List.forall_mem_append.mpr ⟨fun c hc => ?_, List.forall_mem_singleton.mpr hinputs⟩
      obtain ⟨cs, hcs, hc⟩ := List.mem_flatten.mp hc
      exact hgoals cs hcs c hc

theorem pointers {names : List String} (h : ∀ side, ∀ n ∈ names, n ≠ (P side).arch.mem.name) :
    Compares P orig mod (.pointers names) where
  post := Tame.trivial
  hyp := pointersBoth h

theorem emptyPost (ho : orig ∈ (P .orig).subs) : Compares P orig mod .emptyPost where
  post := Tame.trivial
  hyp := equalInputs ho

end Compares

theorem outputs {o : Options} (hs : s ∈ (P .orig).subs) :
    Tame P Fault.Contained (fun vars => ∀ v ∈ vars, v.sorted) (Analysis.outputs o s) :=
  .env fun _ he => .ite (fun _ => .pure fun v hv => varsOf_sorted he hs v (List.mem_of_mem_filter hv))
    fun _ => .throw True.intro

theorem comparators {o : Options} (ho : orig ∈ (P .orig).subs)
    (hn : ∀ side, ∀ n ∈ o.pointerRegs, n ≠ (P side).arch.mem.name) :
    Tame P Fault.Contained (fun cmps => ∀ cmp ∈ cmps, Compares P orig mod cmp)
      (Analysis.comparators o orig mod) := by
  have hif {c : Prop} [Decidable c] {xs ys : List Comparator}
      (hx : ∀ cmp ∈ xs, Compares P orig mod cmp) (hy : ∀ cmp ∈ ys, Compares P orig mod cmp) :
      ∀ cmp ∈ if c then xs else ys, Compares P orig mod cmp := by
    split
    · exact hx
    · exact hy
  have hone {cmp : Comparator} (h : Compares P orig mod cmp) :
      ∀ cmp' ∈ [cmp], Compares P orig mod cmp' := List.forall_mem_singleton.mpr h
  have happ {xs ys : List Comparator} (hx : ∀ cmp ∈ xs, Compares P orig mod cmp)
      (hy : ∀ cmp ∈ ys, Compares P orig mod cmp) :
      ∀ cmp ∈ xs ++ ys, Compares P orig mod cmp := List.forall_mem_append.mpr ⟨hx, hy⟩
  have hnil : ∀ cmp ∈ ([] : List Comparator), Compares P orig mod cmp := nofun
  have hrel {regs : List Comparator} (hregs : ∀ cmp ∈ regs, Compares P orig mod cmp) :=
    happ (happ (hif (c := o.compareFuncCalls) (hone (.calls ho)) hnil) hregs)
      (hif (c := o.postcond.isEmpty && o.precond.isEmpty) hnil
        (hone (.formulas (Analysis.orTrue o.postcond) (Analysis.orTrue o.precond))))
  have hall {rel : List Comparator} (hrel : ∀ cmp ∈ rel, Compares P orig mod cmp) :=
    happ (happ (happ (happ (hone .stackPointers) (hif (c := o.memOffset.isSome) hnil (hone .memories)))
      hrel) (hif (c := o.pointerRegs.isEmpty) hnil (hone (.pointers hn))))
      (hif (c := rel.isEmpty) (hone (.emptyPost ho)) hnil)
  unfold Analysis.comparators
  dsimp only
  split
  · simp only [pure_bind]
    exact .pure (hall (hrel hnil))
  · simp only [pure_bind]
    exact (sharedVars ho).bind fun shared hshared => (outputs ho).bind fun post hpost =>
      .pure (hall (hrel (hone (.registers hshared hpost))))

theorem subs {cmps : List Comparator} (ho : orig ∈ (P .orig).subs) (hm : mod ∈ (P .mod).subs)
    (hc : ∀ cmp ∈ cmps, Compares P orig mod cmp) : Yields P (Compare.subs cmps orig mod) := by
  have hrest {first second : List Constr} {post : Constr} (hfirst : ∀ c ∈ first, c.Formal)
      (hsecond : ∀ c ∈ second, c.Formal) (hpost : post.Formal) : Yields P (do
      let hyps ← cmps.mapM fun c => c.hyp orig mod
      let hyp ← Walk.conjoin (hyps ++ first ++ second)
      let preMod ← Walk.visitSub .mod post mod
      let pre ← Walk.visitSub .orig preMod orig
      Walk.mkClause [hyp] [pre]) := by
    refine (Tame.mapM_all fun cmp hcmp => (hc cmp hcmp).hyp).bind fun hyps hhyps => ?_
    have hknown : ∀ c ∈ hyps ++ first ++ second, c.Formal :=
      List.forall_mem_append.mpr ⟨List.forall_mem_append.mpr ⟨hhyps, hfirst⟩, hsecond⟩
    refine (Tame.conjoin hknown).bind fun hyp hhyp => ?_
    refine (visitSub_tame hm hpost).bind fun preMod hpreMod => ?_
    refine (visitSub_tame ho hpreMod).bind fun pre hpre => ?_
    exact .mkClause (List.forall_mem_singleton.mpr hhyp) (List.forall_mem_singleton.mpr hpre)
  refine .env fun e he => (snapshot (varsOf_sorted he ho)).bind fun first hfirst => ?_
  refine .env fun e he => (snapshot (varsOf_sorted he hm)).bind fun second hsecond => ?_
  refine (Tame.mapM_all fun cmp hcmp => (hc cmp hcmp).post).bind fun posts hposts => ?_
  cases posts with
  | nil => exact Tame.trivial.bind fun post hpost => hrest hfirst hsecond hpost
  | cons c cs => exact (Tame.conjoin hposts).bind fun post hpost => hrest hfirst hsecond hpost

theorem compared {o : Options} (ho : orig ∈ (P .orig).subs) (hm : mod ∈ (P .mod).subs)
    (hn : ∀ side, ∀ n ∈ o.pointerRegs, n ≠ (P side).arch.mem.name) :
    Yields P (do Compare.subs (← Analysis.comparators o orig mod) orig mod) :=
  (comparators ho hn).bind fun _ hcmps => subs ho hm hcmps

end Yields

end Precond.Walk

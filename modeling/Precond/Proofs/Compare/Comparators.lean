import Precond.Compare.Basic
import Precond.Proofs.Walk.Builds

/-! Comparators read the programs they compare and build constraints (`PairRel.Reads`), which holds
of all comparators there are (`Comparator.Reads`). -/

namespace Precond

open IR Walk

/-- A relation that builds its constraint from given ones. -/
structure PairRel.Reads (given : Constr → Prop) (rel : PairRel) : Prop where
  builds (orig mod : Sub) : Builds given (rel orig mod) fun c => [c]

/-- Both relations of a comparator build their constraints from given ones. -/
structure Comparator.Reads (given : Constr → Prop) (cmp : Comparator) : Prop where
  post : cmp.post.Reads given
  hyp : cmp.hyp.Reads given

variable {given : Constr → Prop}

namespace PairRel

theorem reads_any : any.Reads given := ⟨fun _ _ => .trivial⟩

theorem builds_equalVars (vars : List Var) (label : String) :
    Builds given (equalVars vars label) fun c => [c] :=
  .clause fun v _ => .skip (.on (.mkVar v) _) fun _ => .skip (.on (.mkVar v) _) fun _ => .equate ..

theorem builds_sharedVars (orig mod : Sub) : Builds given (sharedVars orig mod) fun _ => [] :=
  .skip (.env _) fun _ => .skip (.env _) fun _ => .pure nofun

theorem reads_equalInputs : equalInputs.Reads given :=
  ⟨fun orig mod => .skip (builds_sharedVars orig mod) fun _ => builds_equalVars ..⟩

theorem builds_calleesOfBoth (orig mod : Sub) :
    Builds given (calleesOfBoth orig mod) fun _ => [] :=
  .skip (.env _) fun _ => .skip (.env _) fun _ => .pure nofun

theorem reads_sameCalls : sameCalls.Reads given :=
  ⟨fun orig mod => .skip (builds_calleesOfBoth orig mod) fun _ => .clause fun name _ =>
    .skip (.on (.getCalled name) _) fun _ => .skip (.on (.getCalled name) _) fun _ => .mkGoal ..⟩

theorem builds_nothingCalled (side : Side) (name : String) :
    Builds given (nothingCalled side name) fun c => [c] :=
  .skip (.on (.getCalled name) _) fun _ => .mkGoal ..

end PairRel

namespace Comparator

open PairRel

theorem reads_empty : empty.Reads given := ⟨reads_any, reads_any⟩

theorem reads_emptyPost : emptyPost.Reads given := ⟨reads_any, reads_equalInputs⟩

theorem reads_registers (pre post : List Var) : (registers pre post).Reads given :=
  ⟨⟨fun _ _ => builds_equalVars ..⟩, ⟨fun _ _ => builds_equalVars ..⟩⟩

theorem reads_stackPointers : stackPointers.Reads given := by
  refine ⟨reads_any, ⟨fun _ _ => .skip (.on .spRange _) fun p => ?_⟩⟩
  refine .bind (.mkGoal ..) fun a => .skip (.on .spRange _) fun q => .bind (.mkGoal ..) fun b => ?_
  refine .mkClause fun c hc => ?_
  rcases List.mem_cons.mp hc with rfl | hc
  · exact .inl (.inr (List.mem_singleton_self _))
  · exact .inr hc

theorem reads_given {pre post : Constr} (hpre : given pre) (hpost : given post) :
    (Comparator.given pre post).Reads given :=
  ⟨⟨fun _ _ => .pure fun _ hc => List.mem_singleton.mp hc ▸ hpost⟩,
    ⟨fun _ _ => .pure fun _ hc => List.mem_singleton.mp hc ▸ hpre⟩⟩

theorem reads_calls : calls.Reads given := by
  refine ⟨reads_sameCalls, ⟨fun orig mod => .skip (builds_calleesOfBoth orig mod) fun names => ?_⟩⟩
  refine .bind (.mapM id fun name _ => ?_) fun cs => ?_
  · refine .bind (builds_nothingCalled .orig name) fun a => .bind (builds_nothingCalled .mod name)
      fun b => .pure fun c hc => ?_
    rcases List.mem_cons.mp hc with rfl | hc
    · exact .inl (.inr (List.mem_singleton_self _))
    · exact .inr hc
  · refine .bind (reads_equalInputs.builds orig mod) fun a => .mkClause fun c hc => ?_
    rw [List.nil_append, List.mem_append, ← List.flatMap_id] at hc
    exact hc.imp_left .inr

theorem builds_formulaForBoth (text : String) :
    Builds given (formulaForBoth text) fun c => [c] := by
  refine .skip (.env _) fun e => .skip (.env _) fun e' => ?_
  unfold formula
  dsimp only
  split
  · exact .throw _
  · exact .mkGoal ..
  · exact .mkGoal ..

theorem reads_formulas (post hyp : String) : (formulas post hyp).Reads given :=
  ⟨⟨fun _ _ => builds_formulaForBoth post⟩, ⟨fun _ _ => builds_formulaForBoth hyp⟩⟩

theorem reads_memories : memories.Reads given :=
  ⟨reads_any, ⟨fun _ _ => .skip (.env _) fun _ => builds_equalVars ..⟩⟩

theorem builds_register (side : Side) (name : String) :
    Builds given (register side name) fun _ => [] := by
  refine .skip (.env _) fun e => ?_
  dsimp only
  split
  · exact .pure nofun
  · exact .throw _

theorem builds_pointerGoal (side : Side) (v : Var) :
    Builds given (pointerGoal side v) fun c => [c] :=
  .skip (.on (.mkVar v) _) fun _ => .skip (.ofExcept _) fun _ => .skip (.env _) fun _ => .mkGoal ..

theorem reads_pointers (names : List String) : (pointers names).Reads given := by
  refine ⟨reads_any, ⟨fun _ _ => ?_⟩⟩
  refine .skip (.nothing fun name _ => builds_register _ name) fun orig => ?_
  refine .skip (.nothing fun name _ => builds_register _ name) fun mod => ?_
  refine .bind (.nodes fun v _ => builds_pointerGoal _ v) fun cs => ?_
  refine .bind (.nodes fun v _ => builds_pointerGoal _ v) fun ds => .mkClause fun c hc => ?_
  rw [List.nil_append, List.mem_append] at hc
  exact hc.imp_left .inr

end Comparator

end Precond

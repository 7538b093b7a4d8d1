import Precond.Proofs.Exact.Basic
import Precond.Proofs.Run.Readings
import Precond.Proofs.Walk.Sorted

/-! Translation is exact: the term of an expression whose parts fit has the value of the expression
in every model (`Walk.translate_exact`). The side rules that ask for nothing but the parts of the
expression never stop a translation. -/

namespace Precond

open IR

namespace Walk

variable {side : Side} {w w' : World} {V : Table Var SomeTerm} {e : Exp} {s : TSort}

/-! ### Side rules -/

theorem translate_vars {t : SomeTerm} (h : translate side e w = .ok t w') :
    (w'.env side).vars = (w.env side).vars ∧ Stands (w.env side).vars e t := by
  obtain ⟨⟨x, hooks⟩, w₁, hx, h₁⟩ := bind_ok h
  cases h₁
  obtain ⟨-, hdrawn, hstands⟩ := translateWith_ok e hx
  exact ⟨hdrawn.vars, hstands⟩

theorem condition_vars {p : Term .bool} (h : condition side e w = .ok p w') :
    (w'.env side).vars = (w.env side).vars := by
  obtain ⟨t, w₁, ht, h₁⟩ := bind_ok h
  obtain ⟨-, rfl⟩ := ofExcept_ok h₁
  exact (translate_vars ht).1

/-- A word is translated for a condition on it. -/
theorem translate_word {k : Nat} {F : Fault → Prop} {f : (n : Nat) × Term (.bv n) → Walk α}
    {P : α → World → Prop} (he : e.HasSort (.bv k)) (hb : Bound (w.env side).vars e)
    (hf : ∀ (x : Term (.bv k)) (w' : World), (w'.env side).vars = (w.env side).vars →
      Outcome P F (f ⟨k, x⟩) w') :
    Outcome P F (translate side e >>= fun t => (liftM t.sized : Walk _) >>= f) w := by
  have htranslate : Outcome (fun t w' => (w'.env side).vars = (w.env side).vars ∧
      ∃ x : Term (.bv k), t = ⟨.bv k, x⟩) F (translate side e) w := by
    refine .bind (((translateWith_outcome attends_silent he hb rfl)).mono (fun _ _ h => h)
      fun f ⟨_, _, hf⟩ => hf.elim) ?_
    rintro ⟨_, hooks⟩ w₁ ⟨h₁, x, rfl, -⟩
    exact .pure ⟨h₁, x, rfl⟩
  refine .bind htranslate ?_
  rintro _ w₁ ⟨h₁, x, rfl⟩
  exact .bind (P := fun y w' => y = ⟨k, x⟩ ∧ w' = w₁) ⟨rfl, rfl⟩ fun _ _ ⟨hy, hw⟩ =>
    hy ▸ hw ▸ hf x w₁ h₁

/-- The address of an access is a word that the expression reads. -/
theorem accessed_word {access : Access} {addr : Exp} {size : Int}
    (h : accessed? access e = some (addr, size)) (he : e.HasSort s) (hb : Bound V e) :
    ∃ k, addr.HasSort (.bv k) ∧ Bound V addr := by
  cases he with
  | load hm ha =>
    rw [accessed?] at h
    split at h
    · cases h
      exact ⟨_, ha, hb.part fun v hv => by simp [Exp.freeVars, hv]⟩
    · cases h
  | store hm ha =>
    rw [accessed?] at h
    split at h
    · cases h
      exact ⟨_, ha, hb.part fun v hv => by simp [Exp.freeVars, hv]⟩
    · cases h
  | _ => cases h

theorem divisor_word {op : BinOp} {l r : Exp} (he : (Exp.bin op l r).HasSort s)
    (hb : Bound V (.bin op l r)) : ∃ k, r.HasSort (.bv k) ∧ Bound V r := by
  have hr : Bound V r := hb.part fun v hv => by simp [Exp.freeVars, hv]
  cases he with
  | arith _ _ _ h | compare _ _ h | shift _ _ h => exact ⟨_, h, hr⟩

theorem translate_var {v : Var} {t : SomeTerm} (h : translate side (.var v) w = .ok t w') :
    (w.env side).vars.lookup v = some t ∧ w' = w := by
  obtain ⟨⟨x, hooks⟩, w₁, hx, h₁⟩ := bind_ok h
  obtain ⟨_, w₂, h₂, h₃⟩ := bind_ok hx
  obtain ⟨y, w₃, hy, h₄⟩ := bind_ok h₃
  cases h₁
  cases h₂
  cases h₄
  exact getVar_ok hy

/-- The read of the second program leaves the bindings of this side as they are: where this side is
the second program, the memory is bound there. -/
theorem offsetRead_vars {width : Nat} {distance : Int} {h : Option Hook}
    (hh : sideCondition side e (.offsetRead width distance) w = .ok h w') :
    (w'.env side).vars = (w.env side).vars := by
  unfold sideCondition at hh
  dsimp only at hh
  split at hh
  · rename_i mem addr endian size
    obtain ⟨a, w₁, ha, h₁⟩ := bind_ok hh
    obtain ⟨m, w₂, hm, h₂⟩ := bind_ok h₁
    obtain ⟨orig, w₃, horig, h₃⟩ := bind_ok h₂
    obtain ⟨-, rfl⟩ := ofExcept_ok horig
    obtain ⟨n, w₄, hn, h₄⟩ := bind_ok h₃
    obtain ⟨hlookup, rfl⟩ := translate_var hm
    have hmod : (w₄.env side).vars = (w₃.env side).vars := by
      obtain ⟨env', henv, rfl⟩ := on_ok hn
      cases side with
      | orig => rfl
      | mod =>
        rcases Env.mkVar_ok henv with ⟨-, rfl⟩ | ⟨_, _, _, hnone, -⟩
        · rfl
        · cases hlookup.symm.trans hnone
    split at h₄
    · cases h₄
    obtain ⟨_, w₅, hu, h₅⟩ := bind_ok h₄
    obtain ⟨-, rfl⟩ := ofExcept_ok hu
    obtain ⟨_, w₆, hl, h₆⟩ := bind_ok h₅
    obtain ⟨-, rfl⟩ := ofExcept_ok hl
    obtain ⟨_, w₇, hq, h₇⟩ := bind_ok h₆
    obtain ⟨-, rfl⟩ := ofExcept_ok hq
    cases h₇
    exact hmod.trans (translate_vars ha).1
  · cases hh
    rfl

/-- A side rule leaves bindings as they are, and only one that is not local may fault. -/
theorem sideCondition_outcome (r : SideRule) (he : e.HasSort s) (hb : Bound (w.env side).vars e) :
    Outcome (fun _ w' => (w'.env side).vars = (w.env side).vars)
      (fun f => r.isLocal = false ∧ ∃ w₁ w₂, sideCondition side e r w₁ = .error f w₂)
      (sideCondition side e r) w := by
  cases r with
  | nonNull access duty =>
    simp only [sideCondition]
    split
    · exact .pure rfl
    · rename_i addr size haccess
      obtain ⟨k, ha, hba⟩ := accessed_word haccess he hb
      exact translate_word ha hba fun x w₁ h₁ => .pure h₁
  | validAccess access duty =>
    simp only [sideCondition]
    split
    · exact .pure rfl
    · rename_i addr size haccess
      obtain ⟨k, ha, hba⟩ := accessed_word haccess he hb
      refine translate_word ha hba fun x w₁ h₁ => ?_
      exact .bind (P := fun _ w' => w' = w₁) (.env rfl) fun _ w₂ h₂ => .pure (h₂ ▸ h₁)
  | nonZeroDivisor =>
    unfold sideCondition
    dsimp only
    split
    · rename_i op l divisor
      split
      · obtain ⟨k, hd, hbd⟩ := divisor_word he hb
        exact translate_word hd hbd fun x w₁ h₁ => .pure h₁
      · exact .pure rfl
    · exact .pure rfl
  | offsetRead width distance =>
    exact .intro (fun _ _ h => offsetRead_vars h) fun f w' hf => ⟨rfl, w, w', hf⟩
  | custom on duty placement cond name =>
    refine .intro (fun h w' hh => ?_) fun f w' hf => ⟨rfl, w, w', hf⟩
    simp only [sideCondition] at hh
    split at hh
    · obtain ⟨p, w₁, hp, h₁⟩ := bind_ok hh
      cases h₁
      exact condition_vars hp
    · cases hh
      rfl

/-- A fault of one of the rules, which is not local. -/
def Faults (side : Side) (rules : List SideRule) (e : Exp) (f : Fault) : Prop :=
  ∃ r ∈ rules, r.isLocal = false ∧ ∃ w w', sideCondition side e r w = .error f w'

theorem attends_sideConditions (rules : List SideRule) :
    Attends side (sideConditions side rules) (Faults side rules) := by
  induction rules with
  | nil => exact ⟨fun _ _ => .pure rfl⟩
  | cons r rules ih =>
    refine ⟨fun {e s w} he hb => ?_⟩
    have hrule := (sideCondition_outcome r he hb).mono (G := Faults side (r :: rules) e)
      (fun _ _ h => h) fun f hf => ⟨r, List.mem_cons_self, hf⟩
    refine .bind hrule fun h w₁ h₁ => ?_
    have hrest := (ih.outcome he (h₁ ▸ hb : Bound (w₁.env side).vars e)).mono
      (G := Faults side (r :: rules) e) (fun _ _ h => h.trans h₁)
      fun f ⟨r', hr', hf⟩ => ⟨r', List.mem_cons_of_mem _ hr', hf⟩
    exact .bind hrest fun hs w₂ h₂ => .pure h₂

/-! ### Exactness -/

/-- The term has the sort, and in each model the value that the expression has in its state. -/
structure Denotes (side : Side) (w : World) (e : Exp) (s : TSort) (t : SomeTerm) : Prop where
  sort : t.1 = s
  value (m : Model) (x : Value) : e.Yields (w.state side m) x ↔ x = t.value m

theorem Stands.denotes {t : SomeTerm} (h : Stands (w.env side).vars e t) (he : e.HasSort s)
    (ht : t.1 = s) : Denotes side w e s t where
  sort := ht
  value m x := by
    have hvalue : e.Yields (w.state side m) (t.value m) := h _ (Table.Grows.refl _) m
    constructor
    · intro hx
      exact Exp.Yields.unique he.known hx hvalue
    · rintro rfl
      exact hvalue

/-- An expression whose parts fit and whose variables are bound has a term, whose value in each
model is that of the expression. Where conditions are asked for, the same holds unless a rule faults
that is not local. -/
theorem translate_exact (he : e.HasSort s) (hb : Bound (w.env side).vars e) :
    (∃ t w', translate side e w = .ok t w' ∧ Denotes side w e s t) ∧
      ((∃ t hooks w', translateChecked side e w = .ok (t, hooks) w' ∧ Denotes side w e s t) ∨
        ∃ f w', translateChecked side e w = .error f w' ∧
          Within (Faults side (w.env side).sideRules) e f) := by
  constructor
  · have hplain := translateWith_outcome (w := w) attends_silent he hb rfl
    obtain ⟨⟨_, hooks⟩, w', hw', -, t, rfl, ht⟩ := hplain.succeeds fun f ⟨_, _, hf⟩ => hf
    exact ⟨⟨s, t⟩, w', bind_of_ok hw', Stands.denotes ht he rfl⟩
  · let w₁ := { w with translations := w.translations + 1 }
    have henv : w₁.env side = w.env side := by cases side <;> rfl
    have hchecked : translateChecked side e w =
        translateWith side (sideConditions side (w.env side).sideRules) e w₁ := by
      rw [← henv]
      rfl
    have houtcome := translateWith_outcome (w := w₁)
      (attends_sideConditions (w.env side).sideRules) he hb (congrArg Env.vars henv)
    rw [hchecked]
    cases h : translateWith side (sideConditions side (w.env side).sideRules) e w₁ with
    | ok r w' =>
      obtain ⟨-, t, ht, hs⟩ := houtcome.of_ok h
      obtain ⟨_, hooks⟩ := r
      cases ht
      exact .inl ⟨⟨s, t⟩, hooks, w', rfl, Stands.denotes hs he rfl⟩
    | error f w' => exact .inr ⟨f, w', rfl, houtcome.of_error h⟩

/-! A word is read and bound. Where the address is small, its low end is shifted by an amount of
another width, and otherwise the high end is read back after the word has been written. -/

def memory : Var := ⟨"mem", .memory 32 8⟩

def register1 : Var := ⟨"R1", .word 32⟩

def loaded : Var := ⟨"x", .word 16⟩

def reread : Exp :=
  .letIn loaded (.load (.var memory) (.var register1) .big 16)
    (.ite (.bin .ult (.var register1) (.lit 3#32))
      (.bin .ashr (.cast .low 8 (.var loaded)) (.lit 300#32))
      (.load (.store (.var memory) (.var register1) (.var loaded) .little 16)
        (.bin .add (.var register1) (.lit 1#32)) .big 8))

def checking : World :=
  .start { Env.start Arch.arm [] with
    vars := [(memory, ⟨.mem 32 8, .const "mem" (.mem 32 8)⟩),
      (register1, ⟨.bv 32, .const "R1" (.bv 32)⟩)]
    sideRules := [.nonNull .load .verify, .validAccess .store .verify, .nonZeroDivisor] }
    (Env.start Arch.arm [])

theorem reread_sorted : reread.HasSort (.bv 8) := by
  have hmem : (Exp.var memory).HasSort (.mem 32 8) := .var rfl
  have hreg : (Exp.var register1).HasSort (.bv 32) := .var rfl
  have hx : (Exp.var loaded).HasSort (.bv 16) := .var rfl
  have hstored : (Exp.store (.var memory) (.var register1) (.var loaded) .little 16).HasSort
      (.mem 32 8) := .store hmem hreg hx rfl (by decide)
  have hlow : (Exp.cast .low 8 (.var loaded)).HasSort (.bv 8) :=
    .cut (.inr rfl) (by decide) (by decide) hx
  have hshift : (Exp.bin .ashr (.cast .low 8 (.var loaded)) (.lit 300#32)).HasSort (.bv 8) :=
    .shift rfl hlow (.lit (by decide))
  refine .letIn (s := .bv 16) rfl (.load hmem hreg (by decide) (by decide)) ?_
  refine .ite (.compare rfl hreg (.lit (by decide))) hshift ?_
  exact .load hstored (.arith rfl rfl hreg (.lit (by decide))) (by decide) (by decide)

theorem reread_bound : Bound (checking.env .orig).vars reread := by
  intro v hv
  have hfree : v = memory ∨ v = register1 := by
    revert v
    decide
  rcases hfree with rfl | rfl
  · exact ⟨_, rfl, rfl⟩
  · exact ⟨_, rfl, rfl⟩

theorem translate_exact_reread :
    reread.HasSort (.bv 8) ∧ Bound (checking.env .orig).vars reread ∧
      (∃ t w', translate .orig reread checking = .ok t w' ∧
        Denotes .orig checking reread (.bv 8) t) ∧
      ((∃ t hooks w', translateChecked .orig reread checking = .ok (t, hooks) w' ∧
          Denotes .orig checking reread (.bv 8) t) ∨
        ∃ f w', translateChecked .orig reread checking = .error f w' ∧
          Within (Faults .orig (checking.env .orig).sideRules) reread f) :=
  ⟨reread_sorted, reread_bound, translate_exact reread_sorted reread_bound⟩

end Walk

end Precond
